import Amalgam.Proofs.World.Telling

/-!
# Manifests and attribute lookup

An attribute is looked up in the first class of a line that stores something under its name, and a manifest has what the
first class declares that declares anything. Not all that is stored is declared, and a bare annotation is declared though
nothing is stored. So the two can be different classes, and a manifest then lists a method that is hidden, or none though
one is found (`World.lists_stored_iff`); a field with the text of a hidden value, or without one though there is
one (`World.field_found_iff`).
-/

namespace Amalgam

/-- The first that has one of two properties is the first that has the other, if each of them has both. -/
theorem List.find?_unique {α : Type} {p q : α → Bool} {l : List α} {a b : α} (ha : l.find? p = some a)
    (hb : l.find? q = some b) (hqa : q a = true) (hpb : p b = true) : a = b := by
  induction l with
  | nil => cases ha
  | cons x l ih =>
    rw [List.find?_cons] at ha hb
    cases hp : p x with
    | true =>
      rw [hp] at ha
      obtain rfl := Option.some.inj ha
      rw [hqa] at hb
      exact Option.some.inj hb
    | false =>
      rw [hp] at ha
      cases hq : q x with
      | true =>
        rw [hq] at hb
        obtain rfl := Option.some.inj hb
        rw [hpb] at hp
        cases hp
      | false =>
        rw [hq] at hb
        exact ih ha hb

/-- The first result that there is comes of the first that gives one. -/
theorem List.findSome?_eq_bind_find? {α β : Type} (f : α → Option β) (l : List α) :
    l.findSome? f = (l.find? fun a => (f a).isSome).bind f := by
  induction l with
  | nil => rfl
  | cons a l ih =>
    rw [List.findSome?_cons, List.find?_cons]
    cases h : f a with
    | none => exact ih
    | some b => exact h.symm

namespace World

variable {w : World} {id : Nat} {name : String} {owners : List String}

/-- The member that a manifest records for something stored. -/
def memberOf? (w : World) (owners : List String) (name : String) : Slot → Option Signature
  | .routine kind f => (w.function? f).map (w.signatureOf owners name kind)
  | .staticValue _ =>
    some { name, kind := .static, visibility := nameVisibility name owners, params := unknownParams }
  | .value _ => none
  | .descriptor => none

/-- The member that a manifest would record for what a class itself stores. -/
def ownMember? (w : World) (owners : List String) (name : String) (a : Nat) : Option Signature :=
  ((w.cls a).slots.get? name).bind (w.memberOf? owners name)

/-- The first class of a line that declares a name. -/
def declarer? (w : World) (id : Nat) (name : String) : Option Nat :=
  (w.lineage id).find? fun a => (w.declared (w.ownersOf id) (w.cls a) name).some?.isSome

/-- The first class of a line that stores something under a name. -/
def keeper? (w : World) (id : Nat) (name : String) : Option Nat :=
  (w.lineage id).find? fun a => ((w.cls a).slots.get? name).isSome

/-- What is stored under a name by the first class of a line that stores something. -/
def stored? (w : World) (id : Nat) (name : String) : Option Slot :=
  (w.lineage id).findSome? fun a => (w.cls a).slots.get? name

/-- Besides the line of a class, its order has no class that stores anything under a name. -/
def MarksKeepNothing (w : World) (id : Nat) (name : String) : Prop :=
  ∀ a ∈ w.order id, a ∉ w.lineage id → (w.cls a).slots.get? name = none

/-- A manifest lists, under a name, the member that is stored first, and no other. -/
def ListsStored (w : World) (id : Nat) (name : String) : Prop := ∀ s, s ∈ (w.manifestOf id).members ∧ s.name = name ↔
  (w.stored? id name).bind (w.memberOf? (w.ownersOf id) name) = some s

/-! ## What is declared and what is stored -/

theorem some?_eq_some {d d' : Declared} : d.some? = some d' ↔ d = d' ∧ d ≠ .nothing := by
  cases d <;> simp [Declared.some?, eq_comm]

/-- A class declares a member exactly if that is recorded for what it stores. -/
theorem declared_eq_member_iff {a : Nat} {s : Signature} :
    w.declared owners (w.cls a) name = .member s ↔ w.ownMember? owners name a = some s := by
  unfold declared fieldOf ownMember? memberOf?
  dsimp only
  cases (w.cls a).slots.get? name with
  | none =>
    cases (w.cls a).hints.get? name with
    | none => simp
    | some h => by_cases hspecial : isSpecialName name = true <;> simp [hspecial]
  | some slot =>
    cases slot with
    | routine kind f => cases hf : w.function? f <;> simp [hf]
    | staticValue v => simp
    | value v => by_cases hspecial : (name != reservedField && isSpecialName name) = true <;> simp [hspecial]
    | descriptor => by_cases hreserved : (name == reservedField) = true <;> simp [hreserved]

theorem declaration?_eq_bind (hbook : name ∉ bookkeepingNames) : w.declaration? id name =
    (w.declarer? id name).bind fun a => (w.declared (w.ownersOf id) (w.cls a) name).some? := by
  unfold declaration? declarer?
  rw [if_neg (by simpa using hbook)]
  exact List.findSome?_eq_bind_find? _ _

theorem stored?_eq_bind : w.stored? id name = (w.keeper? id name).bind fun a => (w.cls a).slots.get? name :=
  List.findSome?_eq_bind_find? _ _

/-- A member is listed if the first class that declares the name declares it. -/
theorem listed_iff (hbook : name ∉ bookkeepingNames) {s : Signature} : s ∈ (w.manifestOf id).members ∧ s.name = name ↔
    ∃ a, w.declarer? id name = some a ∧ w.ownMember? (w.ownersOf id) name a = some s := by
  have hcounts : w.declaration? id name = some (.member s) ↔
      ∃ a, w.declarer? id name = some a ∧ w.ownMember? (w.ownersOf id) name a = some s := by
    rw [declaration?_eq_bind hbook, Option.bind_eq_some_iff]
    refine exists_congr fun a => and_congr_right fun _ => ?_
    rw [some?_eq_some, ← declared_eq_member_iff]
    exact ⟨fun h => h.1, fun h => ⟨h, by rw [h]; exact Declared.noConfusion⟩⟩
  unfold manifestOf
  rw [mem_members_inspect, ← hcounts]
  constructor
  · rintro ⟨hs, rfl⟩
    exact hs
  · intro hs
    obtain ⟨-, a, -, hdeclared⟩ := exists_declared_of_declaration? hs
    have hname : s.name = name := name_of_declared (congrArg Declared.name? hdeclared)
    exact ⟨hname.symm ▸ hs, hname⟩

/-- What is stored first is a member if the first class that stores something stores it. -/
theorem found_iff {s : Signature} : (w.stored? id name).bind (w.memberOf? (w.ownersOf id) name) = some s ↔
    ∃ a, w.keeper? id name = some a ∧ w.ownMember? (w.ownersOf id) name a = some s := by
  rw [stored?_eq_bind, Option.bind_assoc, Option.bind_eq_some_iff]
  rfl

/-- A class that stores a method both stores and declares its name. -/
theorem declares_and_stores {a : Nat} {s : Signature} (h : w.ownMember? owners name a = some s) :
    (w.declared owners (w.cls a) name).some?.isSome = true ∧ ((w.cls a).slots.get? name).isSome = true := by
  refine ⟨?_, ?_⟩
  · rw [declared_eq_member_iff.2 h]
    rfl
  · obtain ⟨slot, hslot, -⟩ := Option.bind_eq_some_iff.1 h
    rw [hslot]
    rfl

/-- What a class finds is what its line stores first, if the marks store nothing. -/
theorem slot?_eq_stored? (marks : w.MarksKeepNothing id name) : w.slot? id name = w.stored? id name := by
  refine (List.findSome?_filter_of (fun a => a != objectId && !markIds.contains a) fun a ha hmark => ?_).symm
  refine marks a ha fun hline => ?_
  rw [(List.mem_filter.1 hline).2] at hmark
  cases hmark

/-! ## Members -/

/--
A manifest lists under a name the member that attribute lookup finds, and nothing if it finds no member, exactly if each
class of the line that stores a method under the name is the first to declare it if and only if it is the first to
store something. And then a member that is listed is the one that the class finds, unless a mark class stores the name.
-/
theorem lists_stored_iff (hbook : name ∉ bookkeepingNames) :
    (w.ListsStored id name ↔ ∀ a, w.ownMember? (w.ownersOf id) name a ≠ none →
      (w.declarer? id name = some a ↔ w.keeper? id name = some a)) ∧
    (w.ListsStored id name → w.MarksKeepNothing id name → ∀ s ∈ (w.manifestOf id).members, s.name = name →
      (w.slot? id name).bind (w.memberOf? (w.ownersOf id) name) = some s) := by
  have hiff : w.ListsStored id name ↔ ∀ s, (∃ a, w.declarer? id name = some a ∧ w.ownMember? (w.ownersOf id) name a = some s) ↔
      ∃ a, w.keeper? id name = some a ∧ w.ownMember? (w.ownersOf id) name a = some s :=
    forall_congr' fun s => iff_congr (listed_iff hbook) found_iff
  refine ⟨hiff.trans ⟨fun h a hmember => ?_, fun h s => ?_⟩, fun lists marks s hs hname => ?_⟩
  · obtain ⟨s, hs⟩ := Option.ne_none_iff_exists'.1 hmember
    obtain ⟨hdeclares, hstores⟩ := declares_and_stores hs
    -- The class that is first in the other respect has a method as well, so it is first in both.
    constructor
    · intro hfirst
      obtain ⟨b, hb, hmember⟩ := (h s).1 ⟨a, hfirst, hs⟩
      rwa [List.find?_unique hfirst hb hstores (declares_and_stores hmember).1]
    · intro hfirst
      obtain ⟨b, hb, hmember⟩ := (h s).2 ⟨a, hfirst, hs⟩
      rwa [List.find?_unique hfirst hb hdeclares (declares_and_stores hmember).2]
  · exact exists_congr fun a => and_congr_left fun hs => h a (by simp [hs])
  · rw [slot?_eq_stored? marks]
    exact (lists s).1 ⟨hs, hname⟩

/-- A till, and a kiosk that hides its closing behind a descriptor and only annotates its rate. -/
def kiosk : World :=
  { fresh with
    classes := fresh.classes ++
      #[{ name := "Till", qualname := "Till", home := "shop", order := [7, objectId],
          slots := [("open", .routine .ofInstance 9), ("close", .routine .ofInstance 9), ("rate", .value (.int 3))] },
        { name := "Kiosk", qualname := "Kiosk", home := "shop", bases := [7], order := [8, 7, objectId],
          slots := [("close", .descriptor)], hints := [("rate", .text "int")] }]
    functions := fresh.functions.push
      { name := "open", qualname := "Till.open", home := "shop", params := [{ name := "self" }], body := .nothing } }

theorem marksKeepNothing_kiosk (name : String) : kiosk.MarksKeepNothing 8 name := by
  have horder : kiosk.order 8 = [8, 7, objectId] := by decide +kernel
  have hline : kiosk.lineage 8 = [8, 7] := by decide +kernel
  intro a ha hmark
  rw [horder] at ha
  rw [hline] at hmark
  have ha : a = objectId := by simpa [not_or.1 (mt List.mem_pair.2 hmark)] using ha
  rw [ha]
  rfl

/-- The kiosk is said to have the closing of the till, which it hides; its opening is what it finds. -/
theorem lists_stored_iff_kiosk : "close" ∉ bookkeepingNames ∧ ¬kiosk.ListsStored 8 "close" ∧
    "open" ∉ bookkeepingNames ∧ kiosk.ListsStored 8 "open" ∧ kiosk.MarksKeepNothing 8 "open" ∧
    ∀ s ∈ (kiosk.manifestOf 8).members, s.name = "open" →
      (kiosk.slot? 8 "open").bind (kiosk.memberOf? (kiosk.ownersOf 8) "open") = some s := by
  have hclose : "close" ∉ bookkeepingNames := by decide
  have hopen : "open" ∉ bookkeepingNames := by decide
  have hhidden : ¬kiosk.ListsStored 8 "close" := by
    intro lists
    have hsame := (lists_stored_iff hclose).1.1 lists 7 (by decide +kernel)
    have hkeeper : kiosk.keeper? 8 "close" = some 8 := by decide +kernel
    rw [hkeeper] at hsame
    exact absurd (hsame.1 (by decide +kernel)) (by decide)
  have hlists : kiosk.ListsStored 8 "open" := by
    refine (lists_stored_iff hopen).1.2 fun a _ => ?_
    have hdeclarer : kiosk.declarer? 8 "open" = some 7 := by decide +kernel
    have hkeeper : kiosk.keeper? 8 "open" = some 7 := by decide +kernel
    rw [hdeclarer, hkeeper]
  exact ⟨hclose, hhidden, hopen, hlists, marksKeepNothing_kiosk "open",
    (lists_stored_iff hopen).2 hlists (marksKeepNothing_kiosk "open")⟩

/-! ## Fields -/

/-- The text that a manifest records for something stored, if it is no method. -/
def textOf? (w : World) (name : String) : Slot → Option String
  | .value v => some (w.spell v)
  | .descriptor => if name = reservedField then some descriptorText else none
  | .routine _ _ => none
  | .staticValue _ => none

/-- A field has the text of what is stored first under its name, and none only if no value and no method is stored. -/
structure FieldFound (w : World) (id : Nat) (f : Field) : Prop where
  text : ∀ text, f.default = some text → (w.slot? id f.name).bind (w.textOf? f.name) = some text
  unset : f.default = none → ∀ a ∈ w.order id, ∀ slot, (w.cls a).slots.get? f.name = some slot → slot = .descriptor

/-- What is declared as a field is a value that is stored, or an annotation without one. -/
theorem of_declared_field {a : Nat} {f : Field} (h : w.declared owners (w.cls a) name = .field f) : f.name = name ∧
    ((∃ slot, (w.cls a).slots.get? name = some slot ∧ f.default.isSome = true ∧ w.textOf? name slot = f.default) ∨
      (w.cls a).slots.get? name = none ∧ f.default = none) := by
  refine ⟨name_of_declared (congrArg Declared.name? h), ?_⟩
  unfold declared fieldOf at h
  dsimp only at h
  split at h
  · split at h <;> cases h
  · cases h
  · rename_i v hslot
    split at h
    · cases h
    · cases h
      exact Or.inl ⟨_, hslot, rfl, rfl⟩
  · rename_i hslot
    split at h
    · rename_i hreserved
      cases h
      exact Or.inl ⟨_, hslot, rfl, if_pos (eq_of_beq hreserved)⟩
    · cases h
  · rename_i hslot
    split at h
    · split at h
      · cases h
      · cases h
        exact Or.inr ⟨hslot, rfl⟩
    · cases h

/-- Under the name of a field, all that can be stored without being declared is a descriptor. -/
theorem eq_descriptor_of_not_declared {a : Nat} {slot : Slot} (filed : w.holds slot = true)
    (hslot : (w.cls a).slots.get? name = some slot) (hplain : name = reservedField ∨ isSpecialName name = false)
    (h : w.declared owners (w.cls a) name = .nothing) : slot = .descriptor ∧ name ≠ reservedField := by
  have hvalue : (name != reservedField && isSpecialName name) = false := by
    rcases hplain with rfl | hplain
    · rfl
    · rw [hplain, Bool.and_false]
  unfold declared fieldOf at h
  rw [hslot] at h
  cases slot with
  | routine kind f =>
    obtain ⟨F, hF⟩ : ∃ F, w.function? f = some F := ⟨_, Array.getElem?_eq_getElem (by simpa [holds] using filed)⟩
    simp [hF] at h
  | staticValue v => cases h
  | value v => simp [hvalue] at h
  | descriptor =>
    refine ⟨rfl, fun hname => ?_⟩
    simp [hname] at h

/--
A field of a manifest is what the first class of the line declares that declares its name. It agrees with attribute lookup
exactly if, where it has a text, no class before that one stores anything under the name, and where it has none, no class
after that one stores a value or a method.
-/
theorem field_found_iff {f : Field} (hf : f ∈ (w.manifestOf id).fields) (filed : w.IsFiled)
    (marks : w.MarksKeepNothing id f.name) : ∃ before a after, w.lineage id = before ++ a :: after ∧
      (∀ b ∈ before, w.declared (w.ownersOf id) (w.cls b) f.name = .nothing) ∧
      w.declared (w.ownersOf id) (w.cls a) f.name = .field f ∧
      (w.FieldFound id f ↔ (f.default.isSome = true → ∀ b ∈ before, (w.cls b).slots.get? f.name = none) ∧
        (f.default = none → ∀ b ∈ after, ∀ slot, (w.cls b).slots.get? f.name = some slot → slot = .descriptor)) := by
  have hcounts : w.declaration? id f.name = some (.field f) := mem_fields_inspect.1 hf
  rw [declaration?_eq_bind (exists_declared_of_declaration? hcounts).1, Option.bind_eq_some_iff] at hcounts
  obtain ⟨a, hfirst, hdeclared⟩ := hcounts
  obtain ⟨hdeclared, -⟩ := some?_eq_some.1 hdeclared
  obtain ⟨-, before, after, hline, hbefore⟩ := List.find?_eq_some_iff_append.1 hfirst
  have hbefore : ∀ b ∈ before, w.declared (w.ownersOf id) (w.cls b) f.name = .nothing := by
    intro b hb
    have hnone := hbefore b hb
    cases hd : w.declared (w.ownersOf id) (w.cls b) f.name with
    | nothing => rfl
    | _ => simp [hd, Declared.some?] at hnone
  have hhidden : ∀ b ∈ before, ∀ slot, (w.cls b).slots.get? f.name = some slot →
      slot = .descriptor ∧ f.name ≠ reservedField := fun b hb slot hslot =>
    eq_descriptor_of_not_declared (filed.holds hslot) hslot
      (or_iff_not_imp_left.2 (not_special_of_declared hdeclared)) (hbefore b hb)
  refine ⟨before, a, after, hline, hbefore, hdeclared, ?_⟩
  have hstored : w.slot? id f.name = (before.findSome? fun b => (w.cls b).slots.get? f.name).or
      (((w.cls a).slots.get? f.name).or (after.findSome? fun b => (w.cls b).slots.get? f.name)) := by
    rw [slot?_eq_stored? marks, stored?, hline, List.findSome?_append, List.findSome?_cons]
    cases (w.cls a).slots.get? f.name <;> rfl
  obtain ⟨-, ⟨slot, hslot, hsome, htext⟩ | ⟨hslot, hnone⟩⟩ := of_declared_field hdeclared
  · obtain ⟨text, hdefault⟩ := Option.isSome_iff_exists.1 hsome
    have hset : f.default ≠ none := by simp [hdefault]
    constructor
    · refine fun found => ⟨fun _ => List.findSome?_eq_none_iff.1 ?_, fun hnone => absurd hnone hset⟩
      -- Only a descriptor could be stored before, and no text is recorded for that.
      cases hearly : before.findSome? fun b => (w.cls b).slots.get? f.name with
      | none => rfl
      | some early =>
        obtain ⟨b, hb, hkept⟩ := List.exists_of_findSome?_eq_some hearly
        obtain ⟨rfl, hname⟩ := hhidden b hb early hkept
        have hfound := found.text text hdefault
        rw [hstored, hearly] at hfound
        simp [textOf?, hname] at hfound
    · rintro ⟨hempty, -⟩
      refine ⟨fun text' htext' => ?_, fun hnone => absurd hnone hset⟩
      rw [hstored, List.findSome?_eq_none_iff.2 (hempty hsome), hslot]
      exact htext.trans htext'
  · have hunset : ¬f.default.isSome = true := by simp [hnone]
    constructor
    · refine fun found => ⟨fun hsome => absurd hsome hunset, fun _ b hb => found.unset hnone b ?_⟩
      have hmem : b ∈ w.lineage id := hline ▸ List.mem_append_right _ (List.mem_cons_of_mem _ hb)
      exact (List.mem_filter.1 hmem).1
    · rintro ⟨-, hlate⟩
      refine ⟨fun text htext => by simp [hnone] at htext, fun _ b hb slot hkept => ?_⟩
      by_cases hmem : b ∈ w.lineage id
      · rw [hline, List.mem_append, List.mem_cons] at hmem
        rcases hmem with hmem | rfl | hmem
        · exact (hhidden b hmem slot hkept).1
        · rw [hslot] at hkept
          cases hkept
        · exact hlate hnone b hmem slot hkept
      · rw [marks b hb hmem] at hkept
        cases hkept

/-- The rate of the kiosk is said to be unset, though it finds the one of the till. -/
theorem field_found_iff_kiosk : kiosk.IsFiled ∧ kiosk.MarksKeepNothing 8 "rate" ∧ ∃ f ∈ (kiosk.manifestOf 8).fields,
    f.name = "rate" ∧ f.default = none ∧ ¬kiosk.FieldFound 8 f := by
  have hfiled : kiosk.IsFiled := by decide +kernel
  have hline : kiosk.lineage 8 = [8, 7] := by decide +kernel
  have hmem : ({ name := "rate", hint := some "int" } : Field) ∈ (kiosk.manifestOf 8).fields := by decide +kernel
  refine ⟨hfiled, marksKeepNothing_kiosk "rate", _, hmem, rfl, rfl, fun found => ?_⟩
  obtain ⟨before, a, after, hsplit, hbefore, hdeclared, hiff⟩ :=
    field_found_iff hmem hfiled (marksKeepNothing_kiosk "rate")
  rw [hline] at hsplit
  obtain _ | ⟨b, before⟩ := before
  · obtain ⟨rfl, rfl⟩ := List.cons.inj hsplit
    cases (hiff.1 found).2 rfl 7 (List.mem_singleton_self 7) (.value (.int 3)) (by rfl)
  · obtain ⟨rfl, -⟩ := List.cons.inj hsplit
    have hsome : (kiosk.declared (kiosk.ownersOf 8) (kiosk.cls 8) "rate").some?.isSome = true := by decide +kernel
    rw [hbefore 8 List.mem_cons_self] at hsome
    cases hsome

end World

end Amalgam
