import Amalgam.Proofs.Blueprint.Told

/-!
# Final members of the base

The base gives no final members: they are inherited as they are. Which members may be taken is decided of each contributor
alone, so nothing keeps a mixin from bringing a member, or any contributor a field, of the same name along. The plan then
takes that name for one of the mixin, and the composite hides what it should inherit (`Blueprint.final_hidden_iff`).
-/

namespace Amalgam

variable {σ : Type}

namespace Blueprint

variable {p : Provider σ} {d : Defaults} {strict : Bool} {q : Request}

/-- A member that the base does not offer gets a method exactly if a mixin offers it, and the method never calls the base. -/
theorem Outline.Told.generated_iff {o : Outline} {described : List Manifest} {base : Manifest} {mixins : List Manifest}
    {read : Entries CombinatorSpec} {t : Planning σ} (told : o.Told p d q t described (base :: mixins) read)
    (hdistinct : (o.mix.participants.map SymbolRef.path).Nodup) {name : String}
    (hbase : ∀ s ∈ base.eligibleMembers .base, s.name ≠ name) :
    (name ∈ o.methods.map MethodDef.name ↔ ∃ m ∈ mixins, ∃ s ∈ m.eligibleMembers .mixin, s.name = name) ∧
      ∀ m ∈ o.methods, m.name = name → o.mix.base.path ∉ m.contributors := by
  obtain ⟨hfresh, -⟩ := List.nodup_cons.1 hdistinct
  have hown : (base.eligibleMembers .base).filter (fun s => s.name == name) = [] :=
    List.filter_eq_nil_iff.2 fun s hs => by simpa using hbase s hs
  have hdefinitions : MemberMap.definitions (o.mix.served (base :: mixins)) name =
      MemberMap.definitions (o.mix.mixins.zip (Manifest.offers .mixin mixins)) name := by
    rw [definitions_served, hown]
    rfl
  constructor
  · refine ⟨fun hmem => ?_, told.generated_of_mixin hdistinct⟩
    obtain ⟨m, hm, rfl⟩ := List.mem_map.1 hmem
    obtain ⟨first, rest, hplanned, -, -⟩ := told.mem_methods.1 hm
    rw [← MemberMap.definitions_offers_ne_nil (Nat.succ.inj told.describes.length), ← hdefinitions, hplanned]
    exact List.cons_ne_nil _ _
  · rintro m hm rfl hcalls
    obtain ⟨target, htarget, hpath⟩ := List.mem_map.1 hcalls
    obtain ⟨first, rest, hplanned, -, hmethod⟩ := told.mem_methods.1 hm
    rw [hmethod] at htarget
    obtain ⟨-, e, he, hcontributor⟩ := (o.context.plannedFrom_methodFor m.name first rest).targets target htarget
    rw [← hplanned, hdefinitions] at he
    exact hfresh (List.mem_map.2 ⟨e.1, MemberMap.mem_of_mem_definitions he, hcontributor.symm.trans hpath⟩)

/--
A method is generated under the name of a final member of the base exactly if some mixin offers a member of that name, and
then it never calls the base. A field is emitted under the name exactly if it is the reserved one, or some contributor has
a field of that name that is not static. In all other cases the member is inherited as it is.
-/
theorem final_hidden_iff {b : Blueprint} {t t' : Planning σ} (h : (build p d strict q).runFrom t = (.ok b, t')) :
    ∃ x described base mixins, p.Describes q t x described (base :: mixins) ∧
      b.header.base :: b.header.mixins = x.participants.map SymbolRef.path ∧
      ∀ s ∈ base.members, (∀ s' ∈ base.members, s'.name = s.name → s'.isFinal = true) →
        (s.name ∈ b.memberNames ↔ ∃ m ∈ mixins, ∃ s' ∈ m.eligibleMembers .mixin, s'.name = s.name) ∧
          (s.name ∈ b.fieldNames ↔
            s.name = reservedField ∨ ∃ m ∈ described, ∃ f ∈ m.fields, f.name = s.name ∧ f.isStatic = false) ∧
          ∀ m ∈ b.methods, m.name = s.name → b.header.base ∉ m.contributors := by
  obtain ⟨o, u, claims, ho, -, rfl⟩ := build_eq_ok h
  have sound := outline_eq_ok p.keeps_trivial trivial ho
  obtain ⟨_, _, -, hheader, -⟩ := stages_of_outline ho
  obtain ⟨described, listed, read, told⟩ := told_of_outline ho
  obtain _ | ⟨base, mixins⟩ := listed
  · cases told.describes.length
  refine ⟨o.mix, described, base, mixins, told.describes, paths_of_planHeader hheader, fun s hs hfinal => ?_⟩
  have hbase : ∀ s' ∈ base.eligibleMembers .base, s'.name ≠ s.name := by
    intro s' hs' hname
    obtain ⟨hmem, heligible⟩ := List.mem_filter.1 hs'
    unfold Signature.isEligible at heligible
    simp [hfinal s' hmem hname] at heligible
  obtain ⟨hgenerated, hcalls⟩ := told.generated_iff sound.participants hbase
  exact ⟨hgenerated, told.fields s.name, fun m hm hname => sound.headerBase ▸ hcalls m hm hname⟩

end Blueprint

/-- A cart with three final members, and a mixin with a member called like the first and a field called like the second. -/
def Manifest.discounted : List Manifest :=
  [{ ref := ⟨"shop", "Cart"⟩
     members := [{ name := "pay", isFinal := true }, { name := "total", isFinal := true },
       { name := "close", isFinal := true }] },
    { ref := ⟨"shop", "Discount"⟩, members := [{ name := "pay" }], fields := [{ name := "total", default := some "0" }] }]

def Request.discounted : Request :=
  { name := "Sale", base := .text "shop:Cart", mixins := [.text "shop:Discount"] }

namespace Blueprint

/-- The mixin hides two of the final members, and the third is inherited. -/
theorem final_hidden_iff_discounted : ∃ b t',
    (build (Provider.ofManifests Manifest.discounted) ⟨.function 0, .function 1, .cls 2, .cls 3, .function 4⟩ true
      .discounted).runFrom ⟨(), []⟩ = (.ok b, t') ∧
    "pay" ∈ b.memberNames ∧ "total" ∈ b.fieldNames ∧ "close" ∉ b.memberNames ∧ "close" ∉ b.fieldNames := by
  generalize hrun : (build (Provider.ofManifests Manifest.discounted) _ true _).runFrom (⟨(), []⟩ : Planning Unit) = r
  have hbuilt : r.1.toOption.isSome = true := by
    rw [← hrun]
    decide +kernel
  obtain ⟨outcome, t'⟩ := r
  cases outcome with
  | error e => cases hbuilt
  | ok b =>
    obtain ⟨x, described, base, mixins, hdescribes, -, hfinal⟩ := final_hidden_iff hrun
    obtain ⟨-, rfl, hlisted⟩ := Provider.eq_of_describes ⟨⟨"shop", "Cart"⟩, [⟨"shop", "Discount"⟩]⟩ Manifest.discounted
      hdescribes (by decide +kernel) (by decide +kernel)
    obtain ⟨rfl, rfl⟩ := List.cons.inj hlisted
    have hpay := hfinal { name := "pay", isFinal := true } (by decide) (by decide)
    have htotal := hfinal { name := "total", isFinal := true } (by decide) (by decide)
    have hclose := hfinal { name := "close", isFinal := true } (by decide) (by decide)
    exact ⟨b, t', rfl, hpay.1.2 (by decide +kernel), htotal.2.1.2 (by decide +kernel),
      fun hmem => absurd (hclose.1.1 hmem) (by decide +kernel), fun hmem => absurd (hclose.2.1.1 hmem) (by decide +kernel)⟩

end Blueprint

end Amalgam
