import Amalgam.Proofs.Session.Mixing

/-!
# Mixing step by step

A composite of a base and a mixin that is mixed with a second mixin comes to the composite of the base and both mixins: under
each name that can be handed on, the two have the same member of the same contributor, or the same field
(`Session.mix_assoc`).
-/

namespace Amalgam

namespace World

variable {u : World} {name : String} {base m₁ m₂ x y z : Nat}

/-- What two classes find under a name is the same member, or relays to the same one what it is called with. -/
def RunsAlike (u : World) (name : String) (slot : Slot) (y z : Nat) : Prop :=
  (u.slot? y name = some slot ∧ u.slot? z name = some slot) ∨
    ∃ φ c g g', u.face? slot = some φ ∧ slot.callee? = some (φ.kind, c) ∧
      u.slot? y name = some (.routine φ.kind g) ∧ u.slot? z name = some (.routine φ.kind g') ∧
      ∀ args keywords, keywords.keys.Nodup →
        (u.Rejects (.function g) args keywords ∧ u.Rejects (.function g') args keywords) ∨
          ∃ vs ks, u.HandsOn φ.isAsync (.function g) args keywords c vs ks ∧
            u.HandsOn φ.isAsync (.function g') args keywords c vs ks

/-- Whether a class finds a member under a name. -/
def HasMember (u : World) (name : String) (id : Nat) : Prop := ∃ slot, u.slot? id name = some slot ∧ slot.callee?.isSome = true

/-- Two classes agree on a name: where one of them has a member, both run that of one contributor, and they have the same
field. -/
structure Agrees (u : World) (name : String) (contributors : List Nat) (y z : Nat) : Prop where
  member : u.HasMember name y ∨ u.HasMember name z →
    ∃ C ∈ contributors, ∃ slot, u.slot? C name = some slot ∧ u.RunsAlike name slot y z
  field : (u.plainField? name y).isSome = (u.plainField? name z).isSome
  value : (u.plainField? name y).isSome = true → u.slot? y name = u.slot? z name

/-- No contributor has a member and another a field of a name. -/
def IsApart (u : World) (name : String) (contributors : List Nat) : Prop :=
  (∀ C ∈ contributors, ∀ s, u.declaration? C name ≠ some (.member s)) ∨
    ∀ C ∈ contributors, ∀ f, u.declaration? C name ≠ some (.field f)

theorem plainField?_eq_none_of_apart {contributors : List Nat} (apart : u.IsApart name contributors) {C D : Nat}
    (hC : C ∈ contributors) {role : Role} (hoffer : u.offer? name role C ≠ none) (hD : D ∈ contributors) :
    u.plainField? name D = none := by
  obtain ⟨s, hs⟩ := Option.ne_none_iff_exists'.1 hoffer
  cases hplain : u.plainField? name D with
  | none => rfl
  | some f =>
    rcases apart with hmember | hfield
    · exact absurd (declaration?_of_offer? hs) (hmember C hC s)
    · exact absurd (declaration?_of_plainField? hplain).1 (hfield D hD f)

theorem firstOffer?_append {ids more : List Nat} {role : Role} {C : Nat} (h : u.firstOffer? name role ids = some C) :
    u.firstOffer? name role (ids ++ more) = some C := by
  induction ids generalizing role with
  | nil => cases h
  | cons id ids ih =>
    rw [firstOffer?] at h
    rw [List.cons_append, firstOffer?]
    split at h
    · rw [if_pos ‹_›, h]
    · rw [if_neg ‹_›, ih h]

open Parameter (Forwards exists_forwards)

/-- Two functions that relay to one member are refused or hand on the same. -/
theorem runsAlike_of_relays {G G' : Function} {φ : Face} {C D g g' : Nat} {slot : Slot} {c : Value} (legal : u.IsLegal)
    (hslot : u.slot? C name = some slot) (hslot' : u.slot? D name = some slot) (hface : u.face? slot = some φ)
    (hc : slot.callee? = some (φ.kind, c)) (hg : u.function? g = some G) (hg' : u.function? g' = some G')
    (relays : u.Relays G φ C name) (relays' : u.Relays G' φ D name) (hy : u.slot? y name = some (.routine φ.kind g))
    (hz : u.slot? z name = some (.routine φ.kind g')) : u.RunsAlike name slot y z := by
  have hlegal : ParamShape.IsLegal (φ.formals.map Parameter.shape) := by
    rw [← relays.shapes]
    exact legal G (Array.mem_of_getElem? hg)
  refine Or.inr ⟨φ, c, g, g', hface, hc, hy, hz, fun args keywords distinct => ?_⟩
  rcases exists_forwards args hlegal distinct with hnone | ⟨vs, ks, forwards⟩
  · exact Or.inl ⟨rejects_of_relays relays hg hnone, rejects_of_relays relays' hg' hnone⟩
  · exact Or.inr ⟨vs, ks, handsOn_of_relays relays hg hlegal forwards hslot hc,
      handsOn_of_relays relays' hg' hlegal forwards hslot' hc⟩

/-- So do a function that relays to one that relays to a member, and one that relays to the member itself. -/
theorem runsAlike_of_chain {G G' H : Function} {φ : Face} {C g g' h : Nat} {slot : Slot} {c : Value} (legal : u.IsLegal)
    (hslot : u.slot? C name = some slot) (hface : u.face? slot = some φ) (hc : slot.callee? = some (φ.kind, c))
    (hg : u.function? g = some G) (hg' : u.function? g' = some G') (hh : u.function? h = some H)
    (relays : u.Relays G φ x name) (hx : u.slot? x name = some (.routine φ.kind h)) (relays' : u.Relays H φ C name)
    (relays'' : u.Relays G' φ C name) (hy : u.slot? y name = some (.routine φ.kind g))
    (hz : u.slot? z name = some (.routine φ.kind g')) : u.RunsAlike name slot y z := by
  have hlegal : ParamShape.IsLegal (φ.formals.map Parameter.shape) := by
    rw [← relays.shapes]
    exact legal G (Array.mem_of_getElem? hg)
  refine Or.inr ⟨φ, c, g, g', hface, hc, hy, hz, fun args keywords distinct => ?_⟩
  rcases exists_forwards args hlegal distinct with hnone | ⟨vs, ks, forwards⟩
  · exact Or.inl ⟨rejects_of_relays relays hg hnone, rejects_of_relays relays'' hg' hnone⟩
  · have hfirst := handsOn_of_relays relays hg hlegal forwards hx rfl
    have hsecond := handsOn_of_relays relays' hh hlegal forwards.again hslot hc
    exact Or.inr ⟨vs, ks, hfirst.trans hsecond, handsOn_of_relays relays'' hg' hlegal forwards hslot hc⟩

/-! ## Agreeing -/

/-- Members that run alike agree. -/
theorem agrees_of_runsAlike {contributors : List Nat} {C : Nat} {slot : Slot} {s s' : Signature} (hC : C ∈ contributors)
    (hslot : u.slot? C name = some slot) (alike : u.RunsAlike name slot y z) (hy : u.gist? y name = some (.member s))
    (hz : u.gist? z name = some (.member s')) : u.Agrees name contributors y z := by
  have hnone : ∀ {id s}, u.gist? id name = some (.member s) → (u.plainField? name id).isSome = false := by
    intro id s hgist
    rw [← Bool.not_eq_true, plainField?_isSome_iff]
    rintro ⟨f, hf, -⟩
    cases hgist.symm.trans hf
  exact ⟨fun _ => ⟨C, hC, slot, hslot, alike⟩, (hnone hy).trans (hnone hz).symm,
    fun hsome => absurd hsome (by simp [hnone hy])⟩

/-- So do classes that find the same, be it what a contributor has or a plain value. -/
theorem agrees_of_found {contributors : List Nat} {C : Nat} (hC : C ∈ contributors) (hslot : u.slot? y name = u.slot? z name)
    (found : u.slot? y name = u.slot? C name ∨ ∃ v, u.slot? y name = some (.value v))
    (hfield : (u.plainField? name y).isSome = (u.plainField? name z).isSome) : u.Agrees name contributors y z := by
  refine ⟨fun member => ?_, hfield, fun _ => hslot⟩
  have hmember : u.HasMember name y := by
    refine member.elim id fun hz => ?_
    unfold HasMember at hz ⊢
    rwa [hslot]
  obtain ⟨slot, hy, hcallee⟩ := hmember
  rcases found with hfound | ⟨v, hv⟩
  · exact ⟨C, hC, slot, hfound ▸ hy, Or.inl ⟨hy, hslot ▸ hy⟩⟩
  · cases hv.symm.trans hy
    cases hcallee

/-- Two composites that have the field of one class, on bases that find the same, find the same. -/
theorem found_of_carried {b b' i i' C : Nat} {mixins mixins' : List Nat} (hi : u.Composes name b mixins i)
    (hi' : u.Composes name b' mixins' i') (nothing : ∀ m ∈ mixins, u.offer? name .mixin m = none)
    (nothing' : ∀ m ∈ mixins', u.offer? name .mixin m = none) (hC : u.firstPlain? name (b :: mixins) = some C)
    (hC' : u.firstPlain? name (b' :: mixins') = some C) (fits : u.Fits name C) (after : u.TakesAfter i b name)
    (after' : u.TakesAfter i' b' name) (hname : name ≠ reservedField) (hbase : u.slot? b name = u.slot? b' name) :
    u.slot? i name = u.slot? i' name ∧ (u.slot? i name = u.slot? b name ∨ ∃ v, u.slot? i name = some (.value v)) ∧
      (u.plainField? name i).isSome = true ∧ (u.plainField? name i').isSome = true := by
  obtain ⟨f, hf, hslot, ⟨g, hg, hstatic, -⟩, -⟩ := hi.carries nothing hC fits after hname
  obtain ⟨f', hf', hslot', ⟨g', hg', hstatic', -⟩, -⟩ := hi'.carries nothing' hC' fits after' hname
  obtain rfl := Option.some.inj (hf.symm.trans hf')
  have hsome := plainField?_isSome_iff.2 ⟨g, hg, hstatic⟩
  have hsome' := plainField?_isSome_iff.2 ⟨g', hg', hstatic'⟩
  obtain ⟨v, hdefault, hv, hi⟩ | ⟨hdefault, hi⟩ := hslot
  · obtain ⟨v', -, hv', hi'⟩ | ⟨hdefault', -⟩ := hslot'
    · cases hv.symm.trans hv'
      exact ⟨hi.trans hi'.symm, Or.inr ⟨v, hi⟩, hsome, hsome'⟩
    · simp [hdefault'] at hdefault
  · obtain ⟨v', hdefault', -⟩ | ⟨-, hi'⟩ := hslot'
    · simp [hdefault] at hdefault'
    · exact ⟨(hi.trans hbase).trans hi'.symm, Or.inl hi, hsome, hsome'⟩

section Associating

variable (hx : u.Composes name base [m₁] x) (hy : u.Composes name x [m₂] y) (hz : u.Composes name base [m₁, m₂] z)

include hx hy hz

section Fields

variable (hname : name ≠ reservedField) (fits : ∀ C ∈ [base, m₁, m₂], u.Fits name C) (afterX : u.TakesAfter x base name)
  (afterY : u.TakesAfter y x name) (afterZ : u.TakesAfter z base name) (none₁ : u.offer? name .mixin m₁ = none)
  (none₂ : u.offer? name .mixin m₂ = none)

include hname fits afterX afterY afterZ none₁ none₂

/-- A field of the base or the first mixin is carried by the composite, and from there again. -/
theorem agrees_of_early_field {C : Nat} (hC : u.firstPlain? name [base, m₁] = some C) :
    u.Agrees name [base, m₁, m₂] y z := by
  have nothing₁ : ∀ m ∈ [m₁], u.offer? name .mixin m = none := by simpa using none₁
  have nothing₂ : ∀ m ∈ [m₂], u.offer? name .mixin m = none := by simpa using none₂
  have nothing : ∀ m ∈ [m₁, m₂], u.offer? name .mixin m = none := by simpa using ⟨none₁, none₂⟩
  have hfits : u.Fits name C := fits C (List.mem_append_left [m₂] (List.mem_of_find?_eq_some hC))
  have hC' : u.firstPlain? name [base, m₁, m₂] = some C := by
    unfold firstPlain? at hC ⊢
    rw [show [base, m₁, m₂] = [base, m₁] ++ [m₂] from rfl, List.find?_append, hC, Option.some_or]
  obtain ⟨f, hf, hslotX, ⟨g, hg, hstatic, hdefault, -⟩, -⟩ := hx.carries nothing₁ hC hfits afterX hname
  have hX : (u.plainField? name x).isSome = true := plainField?_isSome_iff.2 ⟨g, hg, hstatic⟩
  have hfirst : u.firstPlain? name [x, m₂] = some x := by
    unfold firstPlain?
    rw [List.find?_cons]
    simp only [hX]
  have fitsX : u.Fits name x := hx.fits (fun D hD => fits D (List.mem_append_left [m₂] hD)) afterX hname
  obtain ⟨fy, hfy, hslotY, ⟨gy, hgy, hstaticY, -⟩, -⟩ := hy.carries nothing₂ hfirst fitsX afterY hname
  obtain ⟨fz, hfz, hslotZ, ⟨gz, hgz, hstaticZ, -⟩, -⟩ := hz.carries nothing hC' hfits afterZ hname
  obtain rfl := Option.some.inj (hf.symm.trans hfz)
  -- The field of the composite has a value exactly where that of the contributor has one.
  have hsame : fy.default.isSome = f.default.isSome := by
    rw [← hdefault]
    rw [gist?, (declaration?_of_plainField? hfy).1] at hg
    cases hg
    exact (Option.isSome_map).symm
  have hfield : (u.plainField? name y).isSome = (u.plainField? name z).isSome :=
    (plainField?_isSome_iff.2 ⟨gy, hgy, hstaticY⟩).trans (plainField?_isSome_iff.2 ⟨gz, hgz, hstaticZ⟩).symm
  obtain ⟨v, hsome, hvC, hvX⟩ | ⟨hnone, hvX⟩ := hslotX
  · obtain ⟨vy, -, hvX', hvY⟩ | ⟨hnoneY, -⟩ := hslotY
    · obtain ⟨vz, -, hvC', hvZ⟩ | ⟨hnoneZ, -⟩ := hslotZ
      · cases hvX.symm.trans hvX'
        cases hvC.symm.trans hvC'
        exact agrees_of_found List.mem_cons_self (hvY.trans hvZ.symm) (Or.inr ⟨v, hvY⟩) hfield
      · simp [hnoneZ] at hsome
    · simp [hnoneY, hsome] at hsame
  · obtain ⟨vy, hsomeY, -⟩ | ⟨-, hvY⟩ := hslotY
    · simp [hnone, hsomeY] at hsame
    · obtain ⟨vz, hsomeZ, -⟩ | ⟨-, hvZ⟩ := hslotZ
      · simp [hnone] at hsomeZ
      · exact agrees_of_found List.mem_cons_self ((hvY.trans hvX).trans hvZ.symm) (Or.inl (hvY.trans hvX)) hfield

/-- A field of the second mixin alone is carried either way, and what none of the three has is inherited of the base. -/
theorem agrees_of_late_field (hnone : u.firstPlain? name [base, m₁] = none) : u.Agrees name [base, m₁, m₂] y z := by
  have nothing₁ : ∀ m ∈ [m₁], u.offer? name .mixin m = none := by simpa using none₁
  have nothing₂ : ∀ m ∈ [m₂], u.offer? name .mixin m = none := by simpa using none₂
  have nothing : ∀ m ∈ [m₁, m₂], u.offer? name .mixin m = none := by simpa using ⟨none₁, none₂⟩
  obtain ⟨hslotX, hgistX, -⟩ := hx.inherits nothing₁ hnone afterX
  have hfirstZ : u.firstPlain? name [base, m₁, m₂] = u.firstPlain? name [m₂] := by
    unfold firstPlain? at hnone ⊢
    rw [show [base, m₁, m₂] = [base, m₁] ++ [m₂] from rfl, List.find?_append, hnone, Option.none_or]
  have hplainX : (u.plainField? name x).isSome = false := by
    rw [← Bool.not_eq_true, plainField?_isSome_iff, hgistX, ← plainField?_isSome_iff]
    exact List.find?_eq_none.1 hnone base List.mem_cons_self
  have hfirstY : u.firstPlain? name [x, m₂] = u.firstPlain? name [m₂] := by
    unfold firstPlain?
    rw [List.find?_cons]
    simp only [hplainX]
  cases hlast : u.firstPlain? name [m₂] with
  | some C =>
    have hC : C ∈ [m₂] := List.mem_of_find?_eq_some hlast
    obtain ⟨hslot, hfound, hY, hZ⟩ := found_of_carried hy hz nothing₂ nothing (hfirstY.trans hlast) (hfirstZ.trans hlast)
      (fits C (List.mem_append_right [base, m₁] hC)) afterY afterZ hname hslotX
    rw [hslotX] at hfound
    exact agrees_of_found List.mem_cons_self hslot hfound (hY.trans hZ.symm)
  | none =>
    obtain ⟨hslotY, hgistY, -⟩ := hy.inherits nothing₂ (hfirstY.trans hlast) afterY
    obtain ⟨hslotZ, hgistZ, -⟩ := hz.inherits nothing (hfirstZ.trans hlast) afterZ
    have hfield : (u.plainField? name y).isSome = (u.plainField? name z).isSome := by
      rw [Bool.eq_iff_iff, plainField?_isSome_iff, plainField?_isSome_iff, hgistY, hgistX, hgistZ]
    exact agrees_of_found List.mem_cons_self ((hslotY.trans hslotX).trans hslotZ.symm) (Or.inl (hslotY.trans hslotX)) hfield

end Fields

variable (legal : u.IsLegal)

include legal

/-- A name that the first mixin offers, and the second does not, is relayed once either way. -/
theorem agrees_of_first (apart : u.IsApart name [base, m₁, m₂]) (afterY : u.TakesAfter y x name)
    (some₁ : u.offer? name .mixin m₁ ≠ none) (none₂ : u.offer? name .mixin m₂ = none) :
    u.Agrees name [base, m₁, m₂] y z := by
  obtain ⟨C, hC⟩ := exists_firstOffer base [m₁] ⟨m₁, by simp, some₁⟩ .base
  have hC' : u.firstOffer? name .base [base, m₁, m₂] = some C := firstOffer?_append hC
  obtain ⟨slot, φ, c, g, G, hslot, hface, hc, hX, hG, relays, hgistX, -⟩ := hx.relay ⟨m₁, by simp, some₁⟩ hC
  obtain ⟨slot', φ', c', g', G', hslot', hface', hc', hZ, hG', relays', hgistZ, -⟩ := hz.relay ⟨m₁, by simp, some₁⟩ hC'
  cases hslot.symm.trans hslot'
  cases hface.symm.trans hface'
  have hplain₂ : u.plainField? name m₂ = none :=
    plainField?_eq_none_of_apart apart (C := m₁) (by simp) some₁ (by simp)
  have hnone : u.firstPlain? name [x, m₂] = none := by
    refine List.find?_eq_none.2 fun D hD => ?_
    rcases List.mem_cons.1 hD with rfl | hD
    · rw [plainField?_isSome_iff]
      rintro ⟨f, hf, -⟩
      cases hgistX.symm.trans hf
    · rw [List.mem_singleton.1 hD, hplain₂]
      simp
  obtain ⟨hslotY, hgistY, -⟩ := hy.inherits (by simpa using none₂) hnone afterY
  exact agrees_of_runsAlike (List.mem_append_left [m₂] (mem_of_firstOffer hC)) hslot
    (runsAlike_of_relays legal hslot hslot hface hc hG hG' relays relays' (hslotY.trans hX) hZ) (hgistY.trans hgistX) hgistZ

/-- A name that the second mixin offers, and the first does not, is relayed to what the base has of it, or to the second. -/
theorem agrees_of_second (apart : u.IsApart name [base, m₁, m₂]) (afterX : u.TakesAfter x base name)
    (none₁ : u.offer? name .mixin m₁ = none) (some₂ : u.offer? name .mixin m₂ ≠ none) :
    u.Agrees name [base, m₁, m₂] y z := by
  have free : nameVisibility name [] = .free := by
    by_contra hne
    exact some₂ (offer?_eq_none_of_not_free hne)
  have hplain : ∀ D ∈ [base, m₁], u.plainField? name D = none := fun D hD =>
    plainField?_eq_none_of_apart apart (C := m₂) (by simp) some₂ (List.mem_append_left [m₂] hD)
  have hnone : u.firstPlain? name [base, m₁] = none := List.find?_eq_none.2 fun D hD => by simp [hplain D hD]
  obtain ⟨hslotX, hgistX, -⟩ := hx.inherits (by simpa using none₁) hnone afterX
  have hoffers : (u.offer? name .base x).isSome = (u.offer? name .base base).isSome := by
    rw [Bool.eq_iff_iff, offer?_isSome_iff free, offer?_isSome_iff free, hgistX]
  obtain ⟨C, hC⟩ := exists_firstOffer x [m₂] ⟨m₂, by simp, some₂⟩ .base
  obtain ⟨slot, φ, c, g, G, hslot, hface, hc, hY, hG, relays, hgistY, -⟩ := hy.relay ⟨m₂, by simp, some₂⟩ hC
  -- The composite stands for the base, of which it has the name.
  obtain ⟨D, hD, hslotD, hmem⟩ : ∃ D, u.firstOffer? name .base [base, m₁, m₂] = some D ∧ u.slot? D name = some slot ∧
      D ∈ [base, m₁, m₂] := by
    simp only [firstOffer?, hoffers, none₁, Option.isSome_none, Bool.false_eq_true, if_false] at hC ⊢
    split at hC
    · rename_i hbase
      cases hC
      exact ⟨base, by rw [if_pos hbase], hslotX ▸ hslot, by simp⟩
    · rename_i hbase
      rw [if_neg hbase]
      refine ⟨C, hC, hslot, ?_⟩
      split at hC <;> cases hC
      simp
  obtain ⟨slot', φ', c', g', G', hslot', hface', hc', hZ, hG', relays', hgistZ, -⟩ := hz.relay ⟨m₂, by simp, some₂⟩ hD
  cases hslotD.symm.trans hslot'
  cases hface.symm.trans hface'
  exact agrees_of_runsAlike hmem hslotD (runsAlike_of_relays legal hslot hslotD hface hc hG hG' relays relays' hY hZ) hgistY hgistZ

/-- A name that both mixins offer is relayed through the composite that is composed again. -/
theorem agrees_of_both (plain : name ∉ constructorNames) (some₁ : u.offer? name .mixin m₁ ≠ none)
    (some₂ : u.offer? name .mixin m₂ ≠ none) : u.Agrees name [base, m₁, m₂] y z := by
  have free : nameVisibility name [] = .free := by
    by_contra hne
    exact some₂ (offer?_eq_none_of_not_free hne)
  obtain ⟨C, hC⟩ := exists_firstOffer base [m₁] ⟨m₁, by simp, some₁⟩ .base
  have hC' : u.firstOffer? name .base [base, m₁, m₂] = some C := firstOffer?_append hC
  obtain ⟨slot, φ, c, h, H, hslot, hface, hc, hX, hH, relaysX, hgistX, -⟩ := hx.relay ⟨m₁, by simp, some₁⟩ hC
  have hfirst : u.firstOffer? name .base [x, m₂] = some x := by
    have hoffer : (u.offer? name .base x).isSome = true :=
      (offer?_isSome_iff free).2 ⟨_, hgistX, by simp [Signature.isEligible, Signature.isConstructor, plain]⟩
    rw [firstOffer?, if_pos hoffer]
  obtain ⟨slotX, φ', cX, g, G, hslotX, hfaceX, hcX, hY, hG, relaysY, hgistY, -⟩ := hy.relay ⟨m₂, by simp, some₂⟩ hfirst
  cases hX.symm.trans hslotX
  cases (face?_of_relays relaysX hH).symm.trans hfaceX
  obtain ⟨slot', φ', c', g', G', hslot', hface', hc', hZ, hG', relaysZ, hgistZ, -⟩ := hz.relay ⟨m₁, by simp, some₁⟩ hC'
  cases hslot.symm.trans hslot'
  cases hface.symm.trans hface'
  exact agrees_of_runsAlike (List.mem_append_left [m₂] (mem_of_firstOffer hC)) hslot
    (runsAlike_of_chain legal hslot hface hc hG hG' hH relaysY hX relaysX relaysZ hY hZ) hgistY hgistZ

/-- Composing step by step comes to composing at once. -/
theorem agrees_of_composes (plain : name ∉ constructorNames) (hname : name ≠ reservedField)
    (apart : u.IsApart name [base, m₁, m₂]) (fits : ∀ C ∈ [base, m₁, m₂], u.Fits name C) (afterX : u.TakesAfter x base name)
    (afterY : u.TakesAfter y x name) (afterZ : u.TakesAfter z base name) : u.Agrees name [base, m₁, m₂] y z := by
  by_cases h₁ : u.offer? name .mixin m₁ = none <;> by_cases h₂ : u.offer? name .mixin m₂ = none
  · cases hfirst : u.firstPlain? name [base, m₁] with
    | none => exact agrees_of_late_field hx hy hz hname fits afterX afterY afterZ h₁ h₂ hfirst
    | some C => exact agrees_of_early_field hx hy hz hname fits afterX afterY afterZ h₁ h₂ hfirst
  · exact agrees_of_second hx hy hz legal apart afterX h₁ h₂
  · exact agrees_of_first hx hy hz legal apart afterY h₁ h₂
  · exact agrees_of_both hx hy hz legal plain h₁ h₂

end Associating

/-! ## Composing plainly -/

variable {id : Nat}

/-- What a mix needs of a world: it is in order, some classes are in it, and no function sets a name. -/
structure Serves (w : World) (name : String) (ids : List Nat) : Prop where
  legal : w.IsLegal
  closed : w.IsClosed
  filed : w.IsFiled
  known : ∀ C ∈ ids, C < w.classes.size
  unset : ∀ f ∈ w.functions, name ∉ f.sets

instance (w : World) (name : String) (ids : List Nat) : Decidable (w.Serves name ids) :=
  decidable_of_iff (_ ∧ _ ∧ _ ∧ _ ∧ _) ⟨fun ⟨legal, closed, filed, known, unset⟩ => ⟨legal, closed, filed, known, unset⟩,
    fun h => ⟨h.legal, h.closed, h.filed, h.known, h.unset⟩⟩

/-- A class that finds nothing under a name and declares nothing of it has nothing that it could not hand on. -/
theorem fits_of_nothing (hslot : u.slot? id name = none) (hdeclared : u.declaration? id name = none) : u.Fits name id where
  tells hne := absurd hdeclared hne
  params slot φ h := by cases hslot.symm.trans h
  value v h := by cases hslot.symm.trans h
  hint f h := by
    rw [gist?, hdeclared] at h
    cases h

theorem isApart_of_no_fields {contributors : List Nat} (h : ∀ C ∈ contributors, (u.manifestOf C).fields = []) :
    u.IsApart name contributors := by
  refine Or.inr fun C hC f hf => ?_
  obtain ⟨-, a, -, hdeclared⟩ := exists_declared_of_declaration? hf
  obtain rfl : f.name = name := name_of_declared (congrArg Declared.name? hdeclared)
  have hmem : f ∈ (u.manifestOf C).fields := mem_fields_inspect.2 hf
  rw [h C hC] at hmem
  cases hmem

end World

/-- A plan that is straight at sight: no default has to be read back. -/
structure Blueprint.IsPlain (b : Blueprint) : Prop where
  fields : ∀ f ∈ b.fields, '.' ∉ f.name.toList ∧ Text.privateName b.name f.name = f.name
  marks : b.lines.Pairwise Source.Line.Leaves
  aliases : ∀ e ∈ b.aliases, Text.IsStable b.name e.2
  defaults : ∀ m ∈ b.methods, m.hasComputedDefaults = false

instance (b : Blueprint) : Decidable b.IsPlain :=
  decidable_of_iff (_ ∧ _ ∧ _ ∧ _) ⟨fun ⟨fields, marks, aliases, defaults⟩ => ⟨fields, marks, aliases, defaults⟩,
    fun h => ⟨h.fields, h.marks, h.aliases, h.defaults⟩⟩

theorem Blueprint.IsPlain.isStraight {b : Blueprint} (h : b.IsPlain) (w : World) : b.IsStraight w where
  fields := h.fields
  marks := h.marks
  aliases path name hget := h.aliases (path, name) (Entries.mem_of_get? hget)
  defaults m hm hcomputed := absurd hcomputed (by simp [h.defaults m hm])

namespace Session

open World (Evolves)

variable {base m₁ m₂ x y z id : Nat} {mixins : List Nat} {name : String}

/-- A mix keeps the modules and what other classes have under the name that it sets on none. -/
theorem Mixes.lasts {p p' : Session} (mixes : p.Mixes name base mixins id p') (legal : p'.world.IsLegal)
    (plain : name ∉ constructorNames) : p.world.Lasts name p'.world := by
  obtain ⟨b, r, others, k, names, M, v, -, yields⟩ :=
    mixes.yields plain fun v h h' => isLegal_of_evolves (h.trans h') legal
  have hbound : Evolves (· ≠ name) v p'.world := by
    rw [yields.bound]
    exact Evolves.of_eq rfl rfl rfl
  refine ⟨((World.evolves_withModule _ M).trans yields.made.evolves).trans hbound, fun i hi => ?_⟩
  rw [yields.bound]
  exact (Array.getElem?_push_lt hi).trans (Array.getElem?_eq_getElem hi).symm

/--
Three mixes that pass everything through: of a base and a mixin, of what comes of them and a second mixin, and of the base
and both mixins. Other things may go on between them, as long as the modules stay as they are and nothing sets the name on a
class. Then the second composite agrees with the third on each name that is no constructor's and not the reserved one, that is
not a member of one contributor and a field of another, that each contributor can hand on, and in which each of the
composites takes after its base.
-/
theorem mix_assoc {p p' q q' r r' : Session} {u : World} (hx : p.Mixes name base [m₁] x p') (hy : q.Mixes name x [m₂] y q')
    (hz : r.Mixes name base [m₁, m₂] z r') (lastsX : p'.world.Lasts name u) (lastsY : q'.world.Lasts name u)
    (lastsZ : r'.world.Lasts name u) (legal : u.IsLegal) (plain : name ∉ constructorNames) (hname : name ≠ reservedField)
    (apart : u.IsApart name [base, m₁, m₂]) (fits : ∀ C ∈ [base, m₁, m₂], u.Fits name C)
    (afterX : u.TakesAfter x base name) (afterY : u.TakesAfter y x name) (afterZ : u.TakesAfter z base name) :
    u.Agrees name [base, m₁, m₂] y z := by
  have composesX : u.Composes name base [m₁] x := hx.composes lastsX legal plain hname fun C hC => fits C (by grind)
  have fitsX : u.Fits name x := composesX.fits (fun C hC => fits C (by grind)) afterX hname
  have composesY : u.Composes name x [m₂] y := hy.composes lastsY legal plain hname fun C hC => by
    rcases List.mem_pair.1 hC with rfl | rfl
    · exact fitsX
    · exact fits C (by simp)
  have composesZ : u.Composes name base [m₁, m₂] z := hz.composes lastsZ legal plain hname fits
  exact World.agrees_of_composes composesX composesY composesZ legal plain hname apart fits afterX afterY afterZ

def withMix (p : Session) (q : Request) : Session := ((mix .live {} false q).runFrom p).2

/-- A mix by a plan that is straight at sight makes a class of a given number. -/
structure MixesPlainly (p : Session) (q : Request) (id : Nat) : Prop where
  made : ((mix .live {} false q).runFrom p).1.toOption = some id
  plain : ∀ b ∈ (planned .live {} q p.world).1.toOption, b.IsPlain

instance (p : Session) (q : Request) (id : Nat) : Decidable (p.MixesPlainly q id) :=
  decidable_of_iff (_ ∧ _) ⟨fun ⟨made, plain⟩ => ⟨made, plain⟩, fun h => ⟨h.made, h.plain⟩⟩

theorem MixesPlainly.runFrom_mix {p : Session} {q : Request} {id : Nat} (h : p.MixesPlainly q id) :
    (mix .live {} false q).runFrom p = (.ok id, p.withMix q) := by
  have hmade := h.made
  unfold withMix
  generalize (mix .live {} false q).runFrom p = r at hmade
  obtain ⟨outcome, p'⟩ := r
  cases outcome <;> cases hmade
  rfl

theorem MixesPlainly.mixes {p : Session} {name : String} {q : Request} {base id : Nat} {mixins : List Nat}
    (h : p.MixesPlainly q id) (passes : q.Passes p.world base mixins) (furnished : p.world.IsFurnished)
    (serves : p.world.Serves name (base :: mixins)) : p.Mixes name base mixins id (p.withMix q) := by
  refine ⟨⟨{}, false, q, passes, h.runFrom_mix, fun b p₁ hplan => ?_⟩, furnished, serves.closed, serves.filed, serves.known,
    Or.inr serves.unset⟩
  have hplanned : (planned .live {} q p.world).1 = .ok b := by
    rw [runFrom_plan] at hplan
    exact congrArg Prod.fst hplan
  exact (h.plain b (by rw [hplanned]; rfl)).isStraight p.world

/-- A cart; an offer with a label, whose rate is left to a rebate, which takes the label back; and a voucher with a label. -/
def loft : Session where
  world :=
    { World.fresh with
      classes := World.fresh.classes ++
        #[{ name := "Cart", qualname := "Cart", home := "shop", order := [7, World.objectId] },
          { name := "Offer", qualname := "Offer", home := "shop", bases := [World.abcId],
            order := [8, World.abcId, World.objectId],
            slots := [("rate", .routine .ofInstance 9), ("label", .routine .ofInstance 10)],
            hasAbstracts := true, abstracts := ["rate"] },
          { name := "Rebate", qualname := "Rebate", home := "shop", bases := [8],
            order := [9, 8, World.abcId, World.objectId],
            slots := [("rate", .routine .ofInstance 11), ("label", .routine .ofInstance 12)],
            hasAbstracts := true, abstracts := ["label"] },
          { name := "Voucher", qualname := "Voucher", home := "shop", order := [10, World.objectId],
            slots := [("label", .routine .ofInstance 13)] }]
      functions := World.fresh.functions ++
        #[{ name := "rate", qualname := "Offer.rate", home := "shop", params := [{ name := "self" }, { name := "on" }],
            isAbstract := true, body := .nothing },
          { name := "label", qualname := "Offer.label", home := "shop", params := [{ name := "self" }],
            body := .script "Offer.label" (some "self") false [] (.value (.int 1)) },
          { name := "rate", qualname := "Rebate.rate", home := "shop", params := [{ name := "self" }, { name := "on" }],
            body := .script "Rebate.rate" (some "self") false [] (.param "on") },
          { name := "label", qualname := "Rebate.label", home := "shop", params := [{ name := "self" }],
            isAbstract := true, body := .nothing },
          { name := "label", qualname := "Voucher.label", home := "shop", params := [{ name := "self" }],
            body := .script "Voucher.label" (some "self") false [] (.value (.int 2)) }] }
  files := { here := ⟨"/", ["shop"]⟩ }

/-- An opening of the cart and the rebate, a season of the opening and the voucher, and a clearance of all three. -/
def opening : Request where
  name := "Opening"
  base := .live 7 ⟨"shop", "Cart"⟩
  mixins := [.live 9 ⟨"shop", "Rebate"⟩]

def season : Request where
  name := "Season"
  base := .live 11 ⟨"class_mixer_generated.Opening", "Opening"⟩
  mixins := [.live 10 ⟨"shop", "Voucher"⟩]

def clearance : Request where
  name := "Clearance"
  base := .live 7 ⟨"shop", "Cart"⟩
  mixins := [.live 9 ⟨"shop", "Rebate"⟩, .live 10 ⟨"shop", "Voucher"⟩]

/-- The session with the opening, with the season too, and with all three. -/
def loft₁ : Session := loft.withMix opening

def loft₂ : Session := loft₁.withMix season

def loft₃ : Session := loft₂.withMix clearance

/-- Calls a method of a new instance. -/
def ask (id : Nat) (name : String) : Act World Value := do
  let v ← behaviour.call (.cls id) [] []
  let f ← behaviour.attr v name
  behaviour.call f [] []

theorem loft_runs : (loft.MixesPlainly opening 11 ∧ loft₁.MixesPlainly season 12 ∧ loft₂.MixesPlainly clearance 13) ∧
    (loft₁.world.Serves "rate" [11, 10] ∧ loft₂.world.Serves "rate" [7, 9, 10] ∧ loft₃.world.Serves "rate" [7, 9, 10]) ∧
    (loft₃.world.TakesAfter 11 7 "rate" ∧ loft₃.world.TakesAfter 12 11 "rate" ∧ loft₃.world.TakesAfter 13 7 "rate") ∧
    (∀ C ∈ [7, 9, 10], (loft₃.world.manifestOf C).fields.isEmpty = true) ∧
    ((loft₃.world.slot? 12 "rate").bind Slot.callee?).isSome = true ∧
    (((ask 12 "label").runFrom loft₃.world).1.toOption.map loft₃.world.shown = some "1" ∧
      ((ask 12 "label").runFrom loft₃.world).2.trace = [⟨"Offer.label", []⟩]) ∧
    ((ask 13 "label").runFrom loft₃.world).1.toOption.map loft₃.world.shown = some "2" ∧
    ((ask 13 "label").runFrom loft₃.world).2.trace = [⟨"Voucher.label", []⟩] := by
  decide +kernel

theorem fits_rebate : loft.world.Fits "rate" 9 := by
  have hslot : loft.world.slot? 9 "rate" = some (.routine .ofInstance 11) := rfl
  have hmember : (loft.world.declared (loft.world.ownersOf 9) (loft.world.cls 9) "rate").member?.isSome = true := by
    decide +kernel
  have hdeclared : ((loft.world.declaration? 9 "rate").bind World.Declared.member?).isSome = true := by decide +kernel
  refine ⟨fun _ => ⟨9, by decide +kernel, by decide +kernel, fun hnothing => ?_⟩, fun slot φ hfound hface => ?_,
    fun v hfound => ?_, fun f hf => ?_⟩
  · rw [hnothing] at hmember
    cases hmember
  · cases hslot.symm.trans hfound
    cases hface
    intro p hp
    obtain rfl : p = { name := "on" } := List.mem_singleton.1 hp
    exact ⟨by decide +kernel, fun v hv => by cases hv⟩
  · cases hslot.symm.trans hfound
  · unfold World.gist? at hf
    cases hd : loft.world.declaration? 9 "rate" with
    | none =>
      rw [hd] at hf
      cases hf
    | some d =>
      rw [hd] at hf hdeclared
      cases d with
      | member s => exact absurd hf (by simp [World.Declared.gist])
      | _ => cases hdeclared

/-- The opening has the label of the offer, which comes before that of the voucher, and the clearance that of the voucher. -/
theorem mix_not_assoc_loft : (∀ name, loft.world.IsApart name [7, 9, 10]) ∧
    (opening.Passes loft.world 7 [9] ∧ (mix .live {} false opening).runFrom loft = (.ok 11, loft₁)) ∧
    (season.Passes loft₁.world 11 [10] ∧ (mix .live {} false season).runFrom loft₁ = (.ok 12, loft₂)) ∧
    (clearance.Passes loft₂.world 7 [9, 10] ∧ (mix .live {} false clearance).runFrom loft₂ = (.ok 13, loft₃)) ∧
    "label" ∉ constructorNames ∧ nameVisibility "label" [] = .free ∧
    ((ask 12 "label").runFrom loft₃.world).1.toOption.map loft₃.world.shown = some "1" ∧
    ((ask 12 "label").runFrom loft₃.world).2.trace = [⟨"Offer.label", []⟩] ∧
    ((ask 13 "label").runFrom loft₃.world).1.toOption.map loft₃.world.shown = some "2" ∧
    ((ask 13 "label").runFrom loft₃.world).2.trace = [⟨"Voucher.label", []⟩] := by
  have hfields : ∀ C ∈ [7, 9, 10], (loft.world.manifestOf C).fields.isEmpty = true := by decide +kernel
  obtain ⟨⟨hopening, hseason, hclearance⟩, -, -, -, -, ⟨hseen, htrace⟩, hseen', htrace'⟩ := loft_runs
  refine ⟨fun name => World.isApart_of_no_fields fun C hC => List.isEmpty_iff.1 (hfields C hC),
    ⟨⟨rfl, rfl, rfl, rfl⟩, hopening.runFrom_mix⟩, ⟨⟨rfl, rfl, rfl, rfl⟩, hseason.runFrom_mix⟩,
    ⟨⟨rfl, rfl, rfl, rfl⟩, hclearance.runFrom_mix⟩, by decide, by decide +kernel, hseen, htrace, hseen', htrace'⟩

/-- In the rate, the season and the clearance agree. -/
theorem mix_assoc_loft : loft.Mixes "rate" 7 [9] 11 loft₁ ∧ loft₁.Mixes "rate" 11 [10] 12 loft₂ ∧
    loft₂.Mixes "rate" 7 [9, 10] 13 loft₃ ∧ loft₃.world.HasMember "rate" 12 ∧ loft₃.world.Agrees "rate" [7, 9, 10] 12 13 := by
  have furnished : loft.world.IsFurnished := .of_more (by decide +kernel) rfl
  have plain : "rate" ∉ constructorNames := by decide
  have serves : loft.world.Serves "rate" [7, 9, 10] := by decide +kernel
  obtain ⟨⟨hopening, hseason, hclearance⟩, ⟨serves₁, serves₂, serves₃⟩, ⟨afterX, afterY, afterZ⟩, hfields, hmember, -⟩ := loft_runs
  have hx : loft.Mixes "rate" 7 [9] 11 loft₁ := hopening.mixes ⟨rfl, rfl, rfl, rfl⟩ furnished
    ⟨serves.legal, serves.closed, serves.filed, fun C hC => serves.known C (by grind), serves.unset⟩
  have lastsX : loft.world.Lasts "rate" loft₁.world := hx.lasts serves₁.legal plain
  have furnished₁ : loft₁.world.IsFurnished := furnished.evolves lastsX.evolves
  have hy : loft₁.Mixes "rate" 11 [10] 12 loft₂ := hseason.mixes ⟨rfl, rfl, rfl, rfl⟩ furnished₁ serves₁
  have lastsY : loft₁.world.Lasts "rate" loft₂.world := hy.lasts serves₂.legal plain
  have hz : loft₂.Mixes "rate" 7 [9, 10] 13 loft₃ := hclearance.mixes ⟨rfl, rfl, rfl, rfl⟩
    (furnished₁.evolves lastsY.evolves) serves₂
  have lastsZ : loft₂.world.Lasts "rate" loft₃.world := hz.lasts serves₃.legal plain
  have hev : World.Evolves (· ≠ "rate") loft.world loft₃.world := (lastsX.trans (lastsY.trans lastsZ)).evolves
  have hempty : (loft.world.declaration? 7 "rate").isNone = true ∧ (loft.world.declaration? 10 "rate").isNone = true := by
    decide +kernel
  have fits : ∀ C ∈ [7, 9, 10], loft₃.world.Fits "rate" C := by
    intro C hC
    refine hev.fits serves.closed serves.filed (serves.known C hC) (by simp) ?_
    simp only [List.mem_cons, List.not_mem_nil, or_false] at hC
    obtain rfl | rfl | rfl := hC
    · exact World.fits_of_nothing rfl (Option.isNone_iff_eq_none.1 hempty.1)
    · exact fits_rebate
    · exact World.fits_of_nothing rfl (Option.isNone_iff_eq_none.1 hempty.2)
  have hagrees : loft₃.world.Agrees "rate" [7, 9, 10] 12 13 :=
    mix_assoc hx hy hz (lastsY.trans lastsZ) lastsZ (.refl _ _) serves₃.legal plain (by decide)
      (World.isApart_of_no_fields fun C hC => List.isEmpty_iff.1 (hfields C hC)) fits afterX afterY afterZ
  obtain ⟨callee, hcallee⟩ := Option.isSome_iff_exists.1 hmember
  obtain ⟨slot, hslot, hcallee⟩ := Option.bind_eq_some_iff.1 hcallee
  exact ⟨hx, hy, hz, ⟨slot, hslot, by rw [hcallee]; rfl⟩, hagrees⟩

end Session

end Amalgam
