import Amalgam.Proofs.Session.Passing
import Amalgam.Proofs.World.Restoring

/-!
# Composites as contributors

A composite that passes members through has of a name either a method that relays to the first class that offers it, or the
field of the first class that has it, or nothing of its own (`World.Composes`). It can be composed again where its
contributors can (`World.Composes.fits`).
-/

namespace Amalgam

/-- A name is free by how it begins and ends, whatever its owners are called. -/
theorem nameVisibility_eq_free_iff {name : String} (owners : List String) : nameVisibility name owners = .free ↔
    (name.startsWith "__" = true ∧ name.endsWith "__" = true) ∨ name.startsWith "_" = false := by
  have hleads : ∀ t : String, "_".toList <+: t.toList → name.startsWith t = true → name.startsWith "_" = true := by
    intro t ht h
    rw [String.startsWith_string_iff] at h ⊢
    exact ht.trans h
  unfold nameVisibility
  by_cases hstart : name.startsWith "__" = true
  · have hguard : name.startsWith "_" = true := hleads "__" (by decide) hstart
    rw [if_pos hstart]
    cases name.endsWith "__" <;> simp [hstart, hguard]
  · rw [if_neg hstart]
    cases hguard : name.startsWith "_" with
    | true =>
      dsimp only
      split <;> simp [hstart]
    | false =>
      have hmark : ∀ owner ∈ owners, (name.startsWith ("_" ++ String.ofList (owner.toList.dropWhile (· == '_')) ++ "__") &&
          decide (name.length > ("_" ++ String.ofList (owner.toList.dropWhile (· == '_')) ++ "__").length)) = false := by
        intro owner _
        rw [Bool.and_eq_false_iff, ← Bool.not_eq_true]
        refine Or.inl fun h => ?_
        rw [hleads _ (by rw [String.toList_append, String.toList_append, List.append_assoc]; exact List.prefix_append _ _) h]
          at hguard
        cases hguard
      have hnone : (owners.any fun owner =>
          let mark := "_" ++ String.ofList (owner.toList.dropWhile (· == '_')) ++ "__"
          name.startsWith mark && name.length > mark.length) = false := by
        rw [List.any_eq_false]
        intro owner howner
        rw [Bool.not_eq_true]
        exact hmark owner howner
      rw [if_neg (by simpa using hnone)]
      simp

namespace World

variable {u : World} {id base C : Nat} {mixins : List Nat} {name : String} {slot : Slot} {φ : Face} {role : Role}

/-- A class can hand on what it has under a name: it finds what it declares, and what code says of its parameters, its
value and its annotation is read as it is meant. -/
structure Fits (u : World) (name : String) (id : Nat) : Prop where
  tells : u.Tells id name
  params : ∀ slot φ, u.slot? id name = some slot → u.face? slot = some φ → ∀ p ∈ φ.params,
    Text.isPrivateName p.name = false ∧ ∀ v ∈ p.default, v.IsSettled
  value : ∀ v, u.slot? id name = some (.value v) → v.IsSettled ∧ ∀ f, v ≠ .function f
  hint : ∀ f, u.gist? id name = some (.field f) → f.isStatic = false → ∀ t ∈ f.hint, (Hint.text t).isStatic = false

/-- What can be handed on can be handed on later. -/
theorem Evolves.fits {S : String → Prop} {w : World} (h : Evolves S w u) (closed : w.IsClosed) (filed : w.IsFiled)
    (hid : id < w.classes.size) (hname : ¬S name) (fits : w.Fits name id) : u.Fits name id where
  tells := (h.tells_iff closed filed hid hname).2 fits.tells
  params slot φ hslot hface := by
    rw [h.found_eq closed hid hname] at hslot
    obtain ⟨ψ, hψ⟩ : ∃ ψ, w.face? slot = some ψ := by
      cases slot with
      | routine kind f =>
        obtain ⟨a, -, hstored⟩ := List.exists_of_findSome?_eq_some hslot
        have hlt : f < w.functions.size := by simpa [holds] using filed.holds hstored
        exact ⟨_, Option.map_eq_some_iff.2 ⟨_, Array.getElem?_eq_getElem hlt, rfl⟩⟩
      | staticValue v => exact ⟨_, rfl⟩
      | _ => cases hface
    cases (h.face? hψ).symm.trans hface
    exact fits.params slot φ hslot hψ
  value v hslot := fits.value v ((h.found_eq closed hid hname).symm.trans hslot)
  hint f hgist := fits.hint f ((h.gist?_eq closed filed hid hname).symm.trans hgist)

/-- What a composite of a base and mixins has of its own under a name, if all is passed through. -/
structure Composes (u : World) (name : String) (base : Nat) (mixins : List Nat) (id : Nat) : Prop where
  extended : u.Extends id base
  method : (∃ m ∈ mixins, u.offer? name .mixin m ≠ none) → ∀ C, u.firstOffer? name .base (base :: mixins) = some C →
    ∃ slot φ c g G, u.slot? C name = some slot ∧ u.face? slot = some φ ∧ slot.callee? = some (φ.kind, c) ∧
      (u.cls id).slots.get? name = some (.routine φ.kind g) ∧ u.function? g = some G ∧ u.Relays G φ C name
  field : (∀ m ∈ mixins, u.offer? name .mixin m = none) → ∀ C, u.firstPlain? name (base :: mixins) = some C →
    ∃ f, u.plainField? name C = some f ∧
      ((∃ (v : Value) (hint : Option String), f.default.isSome = true ∧ u.slot? C name = some (.value v) ∧
          (u.cls id).slots.get? name = some (.value v) ∧ (u.cls id).hints.get? name = hint.map .text ∧
          ∀ t ∈ hint, f.hint = some t) ∨
        f.default = none ∧ (u.cls id).slots.get? name = none ∧ ∃ t, f.hint = some t ∧
          (u.cls id).hints.get? name = some (.text t))
  nothing : (∀ m ∈ mixins, u.offer? name .mixin m = none) → u.firstPlain? name (base :: mixins) = none →
    (u.cls id).mentions name = false

/-! ## What a class offers -/

theorem of_declaration?_member {s : Signature} (h : u.declaration? id name = some (.member s)) :
    s.name = name ∧ s.visibility = nameVisibility name (u.ownersOf id) := by
  obtain ⟨-, a, -, hdeclared⟩ := exists_declared_of_declaration? h
  exact ⟨name_of_declared (congrArg Declared.name? hdeclared), visibility_of_declared hdeclared⟩

/-- Of a free name, the gist of a declaration tells whether it is offered. -/
theorem offer?_isSome_iff (free : nameVisibility name [] = .free) : (u.offer? name role id).isSome = true ↔
    ∃ s, u.gist? id name = some (.member s) ∧ s.isEligible role = true := by
  unfold offer? gist?
  cases hd : u.declaration? id name with
  | none => simp
  | some d =>
    cases d with
    | member s =>
      obtain ⟨-, hvisibility⟩ := of_declaration?_member hd
      rw [(nameVisibility_eq_free_iff _).2 ((nameVisibility_eq_free_iff []).1 free)] at hvisibility
      have hgist : Declared.gist (.member s) = .member { s with params := [] } := by
        unfold Declared.gist
        rw [← hvisibility]
      rw [Option.map_some, hgist]
      have hsame : Signature.isEligible { s with params := [] } role = s.isEligible role := rfl
      cases hs : s.isEligible role with
      | true => exact ⟨fun _ => ⟨_, rfl, hsame.trans hs⟩, fun _ => by simp [hs]⟩
      | false =>
        refine ⟨fun h => by simp [hs] at h, ?_⟩
        rintro ⟨s', heq, h'⟩
        cases heq
        rw [hsame, hs] at h'
        cases h'
    | field f => simp [Declared.gist]
    | nothing => simp [Declared.gist]

/-- No mixin offers a name that is not free. -/
theorem offer?_eq_none_of_not_free (free : nameVisibility name [] ≠ .free) : u.offer? name .mixin id = none := by
  unfold offer?
  split
  · rename_i s hs
    obtain ⟨-, hvisibility⟩ := of_declaration?_member hs
    have hne : s.visibility ≠ .free := by
      rw [hvisibility]
      exact fun h => free ((nameVisibility_eq_free_iff _).2 ((nameVisibility_eq_free_iff _).1 h))
    refine if_neg ?_
    unfold Signature.isEligible
    cases hv : s.visibility with
    | free => exact absurd hv hne
    | _ => simp
  · rfl

theorem plainField?_isSome_iff : (u.plainField? name id).isSome = true ↔
    ∃ f, u.gist? id name = some (.field f) ∧ f.isStatic = false := by
  unfold plainField? gist?
  cases hd : u.declaration? id name with
  | none => simp
  | some d =>
    cases d with
    | field f => cases hf : f.isStatic <;> simp [Declared.gist, hf]
    | member s => simp [Declared.gist]
    | nothing => simp [Declared.gist]

/-- If a mixin offers a name, some class is the first to offer it. -/
theorem exists_firstOffer (base : Nat) (mixins : List Nat) (offered : ∃ m ∈ mixins, u.offer? name .mixin m ≠ none) (role : Role) :
    ∃ C, u.firstOffer? name role (base :: mixins) = some C := by
  have hmixins : ∃ C, u.firstOffer? name .mixin mixins = some C := by
    induction mixins with
    | nil =>
      obtain ⟨m, hm, -⟩ := offered
      cases hm
    | cons m mixins ih =>
      rw [firstOffer?]
      cases hm : u.offer? name .mixin m with
      | some s => exact ⟨m, rfl⟩
      | none =>
        refine ih ?_
        obtain ⟨m', hm', hoffer⟩ := offered
        rcases List.mem_cons.1 hm' with rfl | hm'
        · exact absurd hm hoffer
        · exact ⟨m', hm', hoffer⟩
  rw [firstOffer?]
  split
  · exact ⟨base, rfl⟩
  · exact hmixins

theorem mem_of_firstOffer {ids : List Nat} (h : u.firstOffer? name role ids = some C) : C ∈ ids := by
  induction ids generalizing role with
  | nil => cases h
  | cons id ids ih =>
    rw [firstOffer?] at h
    split at h
    · cases h
      exact List.mem_cons_self
    · exact List.mem_cons_of_mem _ (ih h)

/-! ## The same gist in another world -/

section Gist

variable {w : World} (h : u.gist? id name = w.gist? id name)

include h

theorem isSome_offer?_congr (free : nameVisibility name [] = .free) :
    (u.offer? name role id).isSome = (w.offer? name role id).isSome := by
  rw [Bool.eq_iff_iff, offer?_isSome_iff free, offer?_isSome_iff free, h]

theorem offer?_eq_none_congr : u.offer? name .mixin id = none ↔ w.offer? name .mixin id = none := by
  by_cases free : nameVisibility name [] = .free
  · rw [← Option.isNone_iff_eq_none, ← Option.isNone_iff_eq_none, ← Option.not_isSome, ← Option.not_isSome,
      isSome_offer?_congr h free]
  · exact iff_of_true (offer?_eq_none_of_not_free free) (offer?_eq_none_of_not_free free)

theorem isSome_plainField?_congr : (u.plainField? name id).isSome = (w.plainField? name id).isSome := by
  rw [Bool.eq_iff_iff, plainField?_isSome_iff, plainField?_isSome_iff, h]

/-- A field of the same gist has a value and an annotation where the other has. -/
theorem plainField?_of_gist {f : Field} (hf : w.plainField? name id = some f) : ∃ f', u.plainField? name id = some f' ∧
    f'.default.isSome = f.default.isSome ∧ f'.hint = f.hint := by
  have hsome : (u.plainField? name id).isSome = true := (isSome_plainField?_congr h).trans (by rw [hf]; rfl)
  obtain ⟨f', hf'⟩ := Option.isSome_iff_exists.1 hsome
  have hgist : ∀ {v : World} {g : Field}, v.plainField? name id = some g → v.gist? id name = some (Declared.gist (.field g)) := by
    intro v g hg
    rw [gist?, (declaration?_of_plainField? hg).1]
    rfl
  have heq := (hgist hf').symm.trans (h.trans (hgist hf))
  unfold Declared.gist at heq
  simp only [Option.some.injEq, Declared.field.injEq, Field.mk.injEq] at heq
  refine ⟨f', hf', ?_, heq.2.2.1⟩
  have hdefault := congrArg Option.isSome heq.2.1
  rwa [Option.isSome_map, Option.isSome_map] at hdefault

end Gist

theorem firstOffer?_congr {w : World} {ids : List Nat} (free : nameVisibility name [] = .free)
    (h : ∀ id ∈ ids, u.gist? id name = w.gist? id name) : u.firstOffer? name role ids = w.firstOffer? name role ids := by
  induction ids generalizing role with
  | nil => rfl
  | cons id ids ih =>
    rw [firstOffer?, firstOffer?, isSome_offer?_congr (h id List.mem_cons_self) free,
      ih fun a ha => h a (List.mem_cons_of_mem _ ha)]

theorem firstPlain?_congr {w : World} {ids : List Nat} (h : ∀ id ∈ ids, u.gist? id name = w.gist? id name) :
    u.firstPlain? name ids = w.firstPlain? name ids := by
  induction ids with
  | nil => rfl
  | cons id ids ih =>
    have ih := ih fun a ha => h a (List.mem_cons_of_mem _ ha)
    unfold firstPlain? at ih ⊢
    rw [List.find?_cons, List.find?_cons, isSome_plainField?_congr (h id List.mem_cons_self), ih]

/-! ## What a class says itself -/

section Own

variable (extended : u.Extends id base)

include extended

theorem slot?_of_own (h : (u.cls id).slots.get? name = some slot) : u.slot? id name = some slot := by
  obtain ⟨rest, horder, -⟩ := extended.order
  rw [slot?, horder, List.findSome?_cons, h]

theorem teller?_of_own (h : (u.cls id).mentions name = true) : u.teller? id name = some id := by
  obtain ⟨rest, horder, -⟩ := extended.order
  rw [teller?, horder, List.find?_cons]
  simp only [h]

theorem gist?_of_own (hbook : name ∉ bookkeepingNames) {d : Declared}
    (h : (u.declared (u.ownersOf id) (u.cls id) name).gist = d) (hd : d ≠ .nothing) : u.gist? id name = some d := by
  obtain ⟨rest, hline⟩ := extended.lineage
  rw [gist?_eq_findSome?, if_neg (by simpa using hbook), hline, List.findSome?_cons, h]
  cases d with
  | nothing => exact absurd rfl hd
  | _ => rfl

theorem gist?_of_own_field (hbook : name ∉ bookkeepingNames) {f : Field}
    (h : u.declared (u.ownersOf id) (u.cls id) name = .field f) : ∃ f', u.gist? id name = some (.field f') ∧
      f'.isStatic = f.isStatic ∧ f'.default.isSome = f.default.isSome ∧ f'.hint = f.hint := by
  have hgist := gist?_of_own extended hbook (congrArg Declared.gist h) Declared.noConfusion
  refine ⟨_, hgist, rfl, ?_, rfl⟩
  show (f.default.map fun _ => "").isSome = _
  exact Option.isSome_map

theorem tells_of_own (h : (u.cls id).mentions name = true) (hd : u.declared (u.ownersOf id) (u.cls id) name ≠ .nothing) :
    u.Tells id name := by
  obtain ⟨rest, hline⟩ := extended.lineage
  exact fun _ => ⟨id, hline ▸ List.mem_cons_self, teller?_of_own extended h, hd⟩

end Own

/-! ## Composites as contributors -/

namespace Composes

variable (composes : u.Composes name base mixins id)

include composes

/-- A member that a mixin offers is relayed to the first class that offers it. -/
theorem relay (offered : ∃ m ∈ mixins, u.offer? name .mixin m ≠ none) {C : Nat}
    (hC : u.firstOffer? name .base (base :: mixins) = some C) :
    ∃ slot φ c g G, u.slot? C name = some slot ∧ u.face? slot = some φ ∧ slot.callee? = some (φ.kind, c) ∧
      u.slot? id name = some (.routine φ.kind g) ∧ u.function? g = some G ∧ u.Relays G φ C name ∧
      u.gist? id name = some (.member { name, kind := φ.kind, isAsync := φ.isAsync }) ∧ u.Tells id name := by
  obtain ⟨slot, φ, c, g, G, hslot, hface, hc, hown, hG, relays⟩ := composes.method offered C hC
  obtain ⟨hwrapped, -, habstract, hfinal⟩ := relays.isPlain
  have hbook : name ∉ bookkeepingNames := by
    obtain ⟨m, -, hoffer⟩ := offered
    obtain ⟨s, hs⟩ := Option.ne_none_iff_exists'.1 hoffer
    exact (exists_declared_of_declaration? (declaration?_of_offer? hs)).1
  have hdeclared : (u.declared (u.ownersOf id) (u.cls id) name) =
      .member (u.signatureOf (u.ownersOf id) name φ.kind G) := by
    unfold declared
    simp only [hown, hG]
  have hmentions : (u.cls id).mentions name = true := by
    unfold Class.mentions Entries.has
    rw [hown]
    rfl
  refine ⟨slot, φ, c, g, G, hslot, hface, hc, slot?_of_own composes.extended hown, hG, relays, ?_, ?_⟩
  · refine gist?_of_own composes.extended hbook ?_ Declared.noConfusion
    rw [hdeclared]
    unfold signatureOf Declared.gist
    simp [hwrapped, habstract, hfinal, relays.isAsync]
  · refine tells_of_own composes.extended hmentions ?_
    rw [hdeclared]
    exact Declared.noConfusion

/-- A field that some contributor has is that of the first one that has it, and is found as it is there, or where the base
finds it if it has no value. -/
theorem carries (nothing : ∀ m ∈ mixins, u.offer? name .mixin m = none) {C : Nat}
    (hC : u.firstPlain? name (base :: mixins) = some C) (fits : u.Fits name C) (after : u.TakesAfter id base name)
    (hname : name ≠ reservedField) :
    ∃ f, u.plainField? name C = some f ∧
      ((∃ v, f.default.isSome = true ∧ u.slot? C name = some (.value v) ∧ u.slot? id name = some (.value v)) ∨
        f.default = none ∧ u.slot? id name = u.slot? base name) ∧
      (∃ f', u.gist? id name = some (.field f') ∧ f'.isStatic = false ∧ f'.default.isSome = f.default.isSome ∧
        ∀ t ∈ f'.hint, (Hint.text t).isStatic = false) ∧ u.Tells id name := by
  obtain ⟨f, hf, hown⟩ := composes.field nothing C hC
  have hplain := declaration?_of_plainField? hf
  obtain ⟨hbook, a, -, hdeclared⟩ := exists_declared_of_declaration? hplain.1
  have hspecial := not_special_of_declared hdeclared hname
  have hhint : ∀ t ∈ f.hint, (Hint.text t).isStatic = false := by
    intro t ht
    refine fits.hint { f with visibility := .free, default := f.default.map fun _ => "" } ?_ hplain.2 t ht
    unfold gist?
    rw [hplain.1]
    rfl
  refine ⟨f, hf, ?_⟩
  obtain ⟨v, hint, hdefault, hslot, hown, hhints, hsub⟩ | ⟨hdefault, hown, t, ht, hhints⟩ := hown
  · have hdeclared : u.declared (u.ownersOf id) (u.cls id) name =
        u.fieldOf (u.ownersOf id) name (hint.map .text) v := by
      unfold declared
      simp only [hown, hhints]
    have hfield : ∃ f', u.declared (u.ownersOf id) (u.cls id) name = .field f' ∧ f'.isStatic = false ∧
        f'.default.isSome = true ∧ f'.hint = hint := by
      rw [hdeclared]
      unfold fieldOf
      rw [if_neg (by simp [hspecial])]
      refine ⟨_, rfl, ?_, rfl, ?_⟩
      · cases hint with
        | none => rfl
        | some t =>
          simp only [Option.map_some, Option.getD_some]
          exact hhint t (hsub t rfl)
      · cases hint <;> rfl
    obtain ⟨f', hf', hstatic, hsome, hsame⟩ := hfield
    obtain ⟨f'', hgist, hstatic', hsome', hsame'⟩ := gist?_of_own_field composes.extended hbook hf'
    refine ⟨Or.inl ⟨v, hdefault, hslot, slot?_of_own composes.extended hown⟩,
      ⟨f'', hgist, hstatic'.trans hstatic, ?_, ?_⟩, tells_of_own composes.extended ?_ ?_⟩
    · rw [hsome', hsome, hdefault]
    · rw [hsame', hsame]
      exact fun t ht => hhint t (hsub t ht)
    · simp [Class.mentions, Entries.has, hown]
    · rw [hf']
      exact Declared.noConfusion
  · have hfield : ∃ f', u.declared (u.ownersOf id) (u.cls id) name = .field f' ∧ f'.isStatic = false ∧ f'.default = none ∧
        f'.hint = some t := by
      unfold declared
      simp only [hown, hhints]
      rw [if_neg (by simp [hspecial]), hhint t ht]
      exact ⟨_, rfl, rfl, rfl, rfl⟩
    obtain ⟨f', hf', hstatic, hnone, hsame⟩ := hfield
    obtain ⟨f'', hgist, hstatic', hsome', hsame'⟩ := gist?_of_own_field composes.extended hbook hf'
    refine ⟨Or.inr ⟨hdefault, slot?_of_takesAfter composes.extended after hown⟩,
      ⟨f'', hgist, hstatic'.trans hstatic, ?_, by rwa [hsame', hsame, ← ht]⟩,
      tells_of_own composes.extended ?_ ?_⟩
    · rw [hsome', hnone, hdefault]
    · simp [Class.mentions, Entries.has, hown, hhints]
    · rw [hf']
      exact Declared.noConfusion

/-- Of a name that no mixin offers and no contributor has a field of, a composite has what its base has. -/
theorem inherits (nothing : ∀ m ∈ mixins, u.offer? name .mixin m = none)
    (hnone : u.firstPlain? name (base :: mixins) = none) (after : u.TakesAfter id base name) :
    u.slot? id name = u.slot? base name ∧ u.gist? id name = u.gist? base name ∧
      (u.Tells base name → u.Tells id name) := by
  have silent := composes.nothing nothing hnone
  exact ⟨slot?_of_takesAfter composes.extended after (mentions_eq_false_iff.1 silent).1,
    gist?_of_takesAfter composes.extended after silent, tells_of_takesAfter composes.extended after silent⟩

/-- A composite can be composed again if its base and its mixins can be composed. -/
theorem fits (contributors : ∀ C ∈ base :: mixins, u.Fits name C) (after : u.TakesAfter id base name)
    (hname : name ≠ reservedField) : u.Fits name id := by
  by_cases offered : ∃ m ∈ mixins, u.offer? name .mixin m ≠ none
  · obtain ⟨C, hC⟩ := exists_firstOffer base mixins offered .base
    obtain ⟨slot, φ, c, g, G, hslot, hface, -, hown, hG, relays, hgist, tells⟩ := composes.relay offered hC
    have hfits := contributors C (mem_of_firstOffer hC)
    refine ⟨tells, fun slot' φ' hslot' hface' => ?_, fun v hv => ?_, fun f hf => ?_⟩
    · cases hown.symm.trans hslot'
      cases (face?_of_relays relays hG).symm.trans hface'
      exact hfits.params slot φ hslot hface
    · cases hown.symm.trans hv
    · cases hgist.symm.trans hf
  · have nothing : ∀ m ∈ mixins, u.offer? name .mixin m = none := by simpa using offered
    have hbase := contributors base List.mem_cons_self
    cases hfirst : u.firstPlain? name (base :: mixins) with
    | none =>
      obtain ⟨hslot, hgist, tells⟩ := composes.inherits nothing hfirst after
      refine ⟨tells hbase.tells, ?_, ?_, ?_⟩
      · rw [hslot]
        exact hbase.params
      · rw [hslot]
        exact hbase.value
      · rw [hgist]
        exact hbase.hint
    | some C =>
      have hfits := contributors C (List.mem_of_find?_eq_some hfirst)
      obtain ⟨f, hf, hslot, ⟨f', hgist, -, -, hhints⟩, tells⟩ := composes.carries nothing hfirst hfits after hname
      have hhint : ∀ f, u.gist? id name = some (.field f) → f.isStatic = false →
          ∀ t ∈ f.hint, (Hint.text t).isStatic = false := by
        intro f'' hf'' _
        cases hgist.symm.trans hf''
        exact hhints
      obtain ⟨v, -, hC, hid⟩ | ⟨-, hid⟩ := hslot
      · refine ⟨tells, fun slot φ hslot hface => ?_, fun v' hv' => ?_, hhint⟩
        · cases hid.symm.trans hslot
          cases hface
        · cases hid.symm.trans hv'
          exact hfits.value v hC
      · refine ⟨tells, ?_, ?_, hhint⟩
        · rw [hid]
          exact hbase.params
        · rw [hid]
          exact hbase.value

end Composes

end World

end Amalgam
