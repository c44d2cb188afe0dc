import Amalgam.Proofs.Blueprint.Told
import Amalgam.Proofs.Source.Hygiene
import Amalgam.Proofs.Source.Prelude

/-!
# One name, a member here and a field there

Of the members of a name the first contributor counts, and so of its fields; but members and fields are collected apart from
each other. So a name is what its first contributor says exactly if no contributor brings it as a member while one brings it
as a field (`Blueprint.first_seen_iff`), and only such a name can be bound twice in the class.
-/

namespace Amalgam

variable {σ : Type}

/-! ## Names of fields -/

namespace Fields

theorem nodup_names_added (origin : SymbolRef) (taken : List String) (fields : List Field) :
    ((added origin taken fields).map FieldDef.name).Nodup := by
  induction fields generalizing taken with
  | nil => exact List.nodup_nil
  | cons f rest ih =>
    unfold added
    split
    · exact ih taken
    · rw [List.map_cons, List.nodup_cons]
      refine ⟨fun hmem => ?_, ih _⟩
      exact (mem_names_added.1 hmem).1 (List.mem_append_right _ (List.mem_singleton.2 rfl))

/-- No field is copied under a name that is taken. -/
theorem nodup_names_of_addContributors {p : Provider σ} {rs : List SymbolRef} {done all : List FieldDef} {s s' : σ}
    (hdone : (done.map FieldDef.name).Nodup) (h : (addContributors p done rs).runFrom s = (.ok all, s')) :
    (all.map FieldDef.name).Nodup := by
  induction rs generalizing done s with
  | nil =>
    cases h
    exact hdone
  | cons r rest ih =>
    obtain ⟨m, u, -, h⟩ := Act.bind_eq_ok.1 h
    obtain ⟨next, v, hnext, h⟩ := Act.bind_eq_ok.1 h
    rw [Act.runFrom_ofExcept, Prod.mk.injEq, addAll_eq] at hnext
    obtain ⟨hnext, rfl⟩ := hnext
    split at hnext
    · cases hnext
    cases hnext
    refine ih ?_ h
    rw [List.map_append, List.nodup_append']
    exact ⟨hdone, nodup_names_added _ _ _, fun name hname hadded => (mem_names_added.1 hadded).1 hname⟩

end Fields

/-! ## Who brings a name -/

/-- What a contributor brings: the members that may be taken from it, and its fields. -/
structure Contribution where
  members : List Signature
  fields : List Field

namespace Contribution

/-- What the contributors bring, from their manifests for the fields and for the members. -/
def ofManifests : Role → (described listed : List Manifest) → List Contribution
  | role, f :: described, m :: listed => ⟨m.eligibleMembers role, f.fields⟩ :: ofManifests .mixin described listed
  | _, _, _ => []

def asMember (c : Contribution) (name : String) : Bool := c.members.any fun s => s.name == name

/-- Fields that are static stay where they are. -/
def asField (c : Contribution) (name : String) : Bool := c.fields.any fun f => f.name == name && !f.isStatic

/-- The first contributor that brings a name. -/
def owner? (cs : List Contribution) (name : String) : Option Contribution :=
  cs.find? fun c => c.asMember name || c.asField name

theorem any_asField {role : Role} {described listed : List Manifest} (hlen : described.length = listed.length)
    (name : String) : (∃ c ∈ ofManifests role described listed, c.asField name = true) ↔
      ∃ m ∈ described, ∃ f ∈ m.fields, f.name = name ∧ f.isStatic = false := by
  induction described generalizing role listed with
  | nil => simp [ofManifests]
  | cons f described ih =>
    cases listed with
    | nil => cases hlen
    | cons m listed =>
      rw [ofManifests, List.exists_mem_cons_iff, List.exists_mem_cons_iff, ih (Nat.succ.inj hlen)]
      simp [asField]

theorem any_asMember {described listed : List Manifest} (hlen : described.length = listed.length) (name : String) :
    (∃ c ∈ ofManifests .mixin described listed, c.asMember name = true) ↔
      ∃ m ∈ listed, ∃ s ∈ m.eligibleMembers .mixin, s.name = name := by
  induction described generalizing listed with
  | nil =>
    obtain rfl := List.length_eq_zero_iff.1 hlen.symm
    simp [ofManifests]
  | cons f described ih =>
    cases listed with
    | nil => cases hlen
    | cons m listed =>
      rw [ofManifests, List.exists_mem_cons_iff, List.exists_mem_cons_iff, ih (Nat.succ.inj hlen)]
      simp [asMember]

end Contribution

namespace Blueprint

variable {p : Provider σ} {d : Defaults} {strict : Bool} {q : Request} {t t' : Planning σ}

/-- The composite has what the first contributor says that brings a name: no field for a member, and no method for a field. -/
def FirstSeenWins (b : Blueprint) (cs : List Contribution) (name : String) : Prop :=
  ∀ owner, Contribution.owner? cs name = some owner →
    (owner.asMember name = true → name ∉ b.fieldNames) ∧ (owner.asField name = true → name ∉ b.memberNames)

/-- What has a method is brought as a member. -/
theorem Outline.Told.asMember_of_generated {o : Outline} {f : Manifest} {described : List Manifest} {base : Manifest}
    {mixins : List Manifest} {read : Entries CombinatorSpec} (told : o.Told p d q t (f :: described) (base :: mixins) read)
    (hlen : described.length = mixins.length) {name : String} (h : name ∈ o.methods.map MethodDef.name) :
    ∃ c ∈ Contribution.ofManifests .base (f :: described) (base :: mixins), c.asMember name = true := by
  obtain ⟨m, hm, rfl⟩ := List.mem_map.1 h
  obtain ⟨first, rest, hdefinitions, -, -⟩ := told.mem_methods.1 hm
  have hne : MemberMap.definitions (o.mix.served (base :: mixins)) m.name ≠ [] := by simp [hdefinitions]
  rw [definitions_served, ne_eq, List.append_eq_nil_iff, not_and_or, List.map_eq_nil_iff, List.filter_eq_nil_iff] at hne
  rw [Contribution.ofManifests, List.exists_mem_cons_iff]
  refine hne.imp (fun hbase => ?_) fun hmixins => ?_
  · simpa [Contribution.asMember] using hbase
  · rw [Contribution.any_asMember hlen]
    exact (MemberMap.definitions_offers_ne_nil (Nat.succ.inj told.describes.length) m.name).1 hmixins

/-- Where the members of all contributors but the first are generated, only a clash of names can go wrong. -/
theorem firstSeenWins_iff {b : Blueprint} {c₀ : Contribution} {rest : List Contribution} {name : String}
    (hfields : name ∈ b.fieldNames ↔ name = reservedField ∨ ∃ c ∈ c₀ :: rest, c.asField name = true)
    (hmember : name ∈ b.memberNames → ∃ c ∈ c₀ :: rest, c.asMember name = true)
    (hlater : (∃ c ∈ rest, c.asMember name = true) → name ∈ b.memberNames) :
    b.FirstSeenWins (c₀ :: rest) name ↔ ¬((∃ c ∈ c₀ :: rest, c.asMember name = true) ∧
      (name = reservedField ∨ ∃ c ∈ c₀ :: rest, c.asField name = true)) := by
  constructor
  · rintro hwins ⟨⟨c, hc, hcmember⟩, hfield⟩
    obtain ⟨owner, howner⟩ : ∃ owner, Contribution.owner? (c₀ :: rest) name = some owner := by
      rw [← Option.isSome_iff_exists, Contribution.owner?, List.find?_isSome]
      exact ⟨c, hc, by rw [hcmember, Bool.true_or]⟩
    obtain ⟨hasMember, hasField⟩ := hwins owner howner
    by_cases hown : owner.asMember name = true
    · exact hasMember hown (hfields.2 hfield)
    -- The owner brings a field, so it is not the one that brings the member, and that one comes later.
    · have hsaid : (owner.asMember name || owner.asField name) = true := by simpa using List.find?_some howner
      rcases List.mem_cons.1 hc with rfl | hc
      · rw [Contribution.owner?, List.find?_cons_of_pos (by rw [hcmember, Bool.true_or])] at howner
        exact hown (Option.some.inj howner ▸ hcmember)
      · refine hasField ?_ (hlater ⟨c, hc, hcmember⟩)
        rwa [Bool.eq_false_iff.2 hown, Bool.false_or] at hsaid
  · intro hnone owner howner
    have hmem := List.mem_of_find?_eq_some howner
    exact ⟨fun hasMember hin => hnone ⟨⟨owner, hmem, hasMember⟩, hfields.1 hin⟩,
      fun hasField hin => hnone ⟨hmember hin, Or.inr ⟨owner, hmem, hasField⟩⟩⟩

/-- In the body of a class only a field that is stored can have the name of another line. -/
theorem nodup_bound_iff {b : Blueprint} (hfields : b.fieldNames.Nodup) (hmembers : b.memberNames.Nodup) :
    ((b.lines.filter Source.Line.binds).map Source.Line.name).Nodup ↔
      ∀ f ∈ b.fields, f.line.binds = true → f.name ∉ b.memberNames := by
  have hlines : (b.lines.filter Source.Line.binds).map Source.Line.name =
      (b.fields.filter fun f => f.line.binds).map FieldDef.name ++ b.memberNames := by
    have hall : b.methods.filter (Source.Line.binds ∘ MethodDef.line) = b.methods := List.filter_eq_self.2 fun _ _ => rfl
    rw [lines, List.filter_append, List.map_append, List.filter_map, List.filter_map, List.map_map, List.map_map, hall]
    rfl
  rw [hlines, List.nodup_append']
  constructor
  · rintro ⟨-, -, hdisjoint⟩ f hf hbinds hmem
    exact hdisjoint (List.mem_map_of_mem (List.mem_filter.2 ⟨hf, hbinds⟩)) hmem
  · intro happart
    refine ⟨hfields.sublist (List.filter_sublist.map FieldDef.name), hmembers, fun name hname hmem => ?_⟩
    obtain ⟨f, hf, rfl⟩ := List.mem_map.1 hname
    obtain ⟨hf, hbinds⟩ := List.mem_filter.1 hf
    exact happart f hf hbinds hmem

/--
The first contributor that brings a name says what the name is in the composite, exactly if no contributor brings it as a member
while one brings it as a field, where the reserved field counts as brought. The class binds no name twice, exactly if no field
that is stored has the name of a method.
-/
theorem first_seen_iff {b : Blueprint} (h : (build p d strict q).runFrom t = (.ok b, t')) : ∃ x described listed,
    p.Describes q t x described listed ∧ b.header.base :: b.header.mixins = x.participants.map SymbolRef.path ∧
    (let cs := Contribution.ofManifests .base described listed
    ∀ name, b.FirstSeenWins cs name ↔ ¬((∃ c ∈ cs, c.asMember name = true) ∧
      (name = reservedField ∨ ∃ c ∈ cs, c.asField name = true))) ∧
    ∀ isArtifact code, Source.compile isArtifact b = .ok code →
      (((code.cls.lines.filter Source.Line.binds).map Source.Line.name).Nodup ↔
        ∀ f ∈ b.fields, f.line.binds = true → f.name ∉ b.memberNames) := by
  obtain ⟨o, u, claims, ho, -, rfl⟩ := build_eq_ok h
  obtain ⟨_, _, -, hheader, -⟩ := stages_of_outline ho
  have sound := outline_eq_ok p.keeps_trivial trivial ho
  obtain ⟨described, listed, read, told⟩ := told_of_outline ho
  refine ⟨o.mix, described, listed, told.describes, paths_of_planHeader hheader, fun name => ?_,
    fun isArtifact code hcode => ?_⟩
  · have hlen := told.describes.length_described.symm.trans told.describes.length
    obtain _ | ⟨base, mixins⟩ := listed
    · exact absurd told.describes.length (by simp [Mix.participants])
    obtain _ | ⟨f, described⟩ := described
    · cases hlen
    refine firstSeenWins_iff ?_ (told.asMember_of_generated (Nat.succ.inj hlen)) fun hlater => ?_
    · exact (told.fields name).trans (or_congr_right (Contribution.any_asField hlen name).symm)
    · exact told.generated_of_mixin sound.participants ((Contribution.any_asMember (Nat.succ.inj hlen) name).1 hlater)
  · rw [Source.lines_eq (Source.classOf_of_compile hcode)]
    obtain ⟨-, _, v, _, _, _, -, -, hfields, -⟩ := runs_of_outline ho
    have hreserved : ([Fields.reserved o.mix.base o.mix.mixins o.header.capabilitySets].map FieldDef.name).Nodup :=
      List.nodup_singleton _
    exact nodup_bound_iff (Fields.nodup_names_of_addContributors hreserved (Planner.ask_eq_ok hfields)) sound.names

end Blueprint

/-- A cart that can be paid and has a total, and a mixin that says the reverse of both and brings a rate along. -/
def Manifest.clashing : List Manifest :=
  [{ ref := ⟨"shop", "Cart"⟩, members := [{ name := "pay" }], fields := [{ name := "total", default := some "0" }] },
    { ref := ⟨"shop", "Discount"⟩, members := [{ name := "total" }]
      fields := [{ name := "pay", default := some "1" }, { name := "rate", default := some "2" }] }]

def Request.clashing : Request :=
  { name := "Sale", base := .text "shop:Cart", mixins := [.text "shop:Discount"] }

namespace Blueprint

/-- The cart is not heard on payments and totals, and the total is bound twice. -/
theorem first_seen_iff_clashing : ∃ b t' code,
    (build (Provider.ofManifests Manifest.clashing) ⟨.function 0, .function 1, .cls 2, .cls 3, .function 4⟩ true
      .clashing).runFrom ⟨(), []⟩ = (.ok b, t') ∧ Source.compile false b = .ok code ∧
    (¬b.FirstSeenWins (Contribution.ofManifests .base Manifest.clashing Manifest.clashing) "pay" ∧
      ¬b.FirstSeenWins (Contribution.ofManifests .base Manifest.clashing Manifest.clashing) "total" ∧
      b.FirstSeenWins (Contribution.ofManifests .base Manifest.clashing Manifest.clashing) "rate") ∧
    ¬((code.cls.lines.filter Source.Line.binds).map Source.Line.name).Nodup := by
  generalize hrun : (build (Provider.ofManifests Manifest.clashing) _ true _).runFrom (⟨(), []⟩ : Planning Unit) = r
  have hclash : (r.1.toOption.map fun b => (Source.compile false b).toOption.isSome &&
      b.fields.any fun f => f.line.binds && b.memberNames.contains f.name) = some true := by
    rw [← hrun]
    decide +kernel
  obtain ⟨outcome, t'⟩ := r
  cases outcome with
  | error e => cases hclash
  | ok b =>
    obtain ⟨hcode, hclash⟩ := Bool.and_eq_true_iff.1 (Option.some.inj hclash)
    obtain ⟨code, hcode⟩ := Outcome.exists_eq_ok_of_isSome hcode
    obtain ⟨f, hf, hclash⟩ := List.any_eq_true.1 hclash
    obtain ⟨hbinds, hmem⟩ := Bool.and_eq_true_iff.1 hclash
    obtain ⟨x, described, listed, hdescribes, -, hwins, hbound⟩ := first_seen_iff hrun
    obtain ⟨-, rfl, rfl⟩ := Provider.eq_of_describes ⟨⟨"shop", "Cart"⟩, [⟨"shop", "Discount"⟩]⟩ Manifest.clashing
      hdescribes (by decide +kernel) (by decide +kernel)
    refine ⟨b, t', code, rfl, hcode, ⟨?_, ?_, ?_⟩, fun hnodup => ?_⟩
    · rw [hwins]
      decide +kernel
    · rw [hwins]
      decide +kernel
    · rw [hwins]
      decide +kernel
    · exact (hbound false code hcode).1 hnodup f hf hbinds (List.contains_iff_mem.1 hmem)

end Blueprint

end Amalgam
