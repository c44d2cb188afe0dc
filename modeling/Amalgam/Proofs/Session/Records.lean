import Amalgam.Proofs.Blueprint.Merging
import Amalgam.Proofs.Session.Recording
import Amalgam.Proofs.Source.Literals

/-!
# The record of a composite survives as a text

A record is written into a blueprint as a text, from there into code, is read where the code is run, and is written again where
the class that stores it is looked at. `Fields.record_survives` says that it is the same at each of these places, whatever the
paths in it are, so that no composite is refused for its record when it is mixed.
-/

namespace Amalgam

namespace Fields

open Literal Source.Layout

variable {σ : Type} {base : String} {mixins sets : List String}

theorem isMetadataText_metadataText (base : String) (mixins sets : List String) :
    isMetadataText (some (metadataText base mixins sets)) = true := by
  rw [isMetadataText_iff]
  exact ⟨_, rfl, _, read?_metadataText base mixins sets, List.Perm.refl _⟩

/-- The text of a record is the value of a field as it stands. -/
theorem fieldText?_metadataText (base : String) (mixins sets : List String) :
    fieldText? (metadataText base mixins sets) = some (metadataText base mixins sets, "") := by
  have hreads := reads_metadataText base mixins sets
  refine fieldText?_eq_self ?_ (expression?_of_reads hreads (by decide)) fun c hc => ?_
  · obtain ⟨c, hc, cs, heq⟩ := hreads.opens
    rw [heq]
    exact (opens_opener hc).trivia_eq false cs
  · have hne : c ≠ '\n' ∧ c ≠ '\r' :=
      ⟨fun h => hreads.plain '\n' (by decide) (h ▸ hc), fun h => hreads.plain '\r' (by decide) (h ▸ hc)⟩
    simp [isLineEnd, hne]

/-- The contributor that is named where fields are refused has a reserved field without the text of a record. -/
theorem exists_forged_of_refused {p : Provider σ} {rs : List SymbolRef} {ms : List Manifest} {s s' : σ}
    (served : (rs.mapM p.manifest).runFrom s = (.ok ms, s')) {done : List FieldDef} {path : String}
    (h : ((addContributors p done rs).runFrom s).1 = .error (.refusal (.reservedField path))) :
    ∃ e ∈ rs.zip ms, e.1.path = path ∧ ∃ f ∈ e.2.fields, f.name = reservedField ∧ isMetadataText f.default = false := by
  rw [runFrom_addContributors served] at h
  cases hfirst : (declarations rs ms).find? isForged with
  | none =>
    rw [hfirst] at h
    cases h
  | some d =>
    rw [hfirst] at h
    cases h
    obtain ⟨e, he, hd⟩ := List.mem_flatMap.1 (List.mem_of_find?_eq_some hfirst)
    obtain ⟨f, hf, rfl⟩ := List.mem_map.1 hd
    have hforged := List.find?_some hfirst
    rw [isForged, Bool.and_eq_true, beq_iff_eq, Bool.not_eq_true'] at hforged
    exact ⟨e, he, rfl, f, hf, hforged⟩

end Fields

namespace Source

variable {b : Blueprint}

/-- The line of a record is written without a name of its origin. -/
theorem fieldLine_record (b : Blueprint) (origin : String) (base : SymbolRef) (mixins : List SymbolRef) (sets : List String) :
    fieldLine b { Fields.reserved base mixins sets with origin } = .ok
      { name := reservedField
        value := some (.literal (Fields.metadataText base.path (mixins.map SymbolRef.path) sets)) } := by
  have hname : isFieldName reservedField = true := by decide
  unfold fieldLine Fields.reserved
  simp only [Bool.false_eq_true, if_false, Fields.isLiteral_metadataText, if_true, hname, Fields.fieldText?_metadataText,
    Option.isSome_some, Bool.and_self]
  rfl

/-- What is read on that line is the record. -/
theorem readsLine_metadataText (base : String) (mixins sets : List String) :
    Layout.ReadsLine (Fields.metadataText base mixins sets).toList (Fields.metadata base mixins sets) := by
  have hread := (Layout.readsLine_fieldText_iff (Fields.read?_metadataText base mixins sets)
    (Fields.fieldText?_metadataText base mixins sets)).2 (by decide)
  rwa [String.toList_empty, List.append_nil] at hread

end Source

namespace World

variable {w w' : World} {id : Nat} {base : String} {mixins sets : List String}

theorem spell_metadata (w : World) (base : String) (mixins sets : List String) :
    w.spell (Fields.metadata base mixins sets) = Fields.metadataText base mixins sets := by
  have hstrs : ∀ ss : List String, Value.objectsOfAll (ss.map .str) = [] := by
    intro ss
    induction ss with
    | nil => rfl
    | cons s ss ih => rw [List.map_cons, Value.objectsOfAll, ih, Value.objects, List.append_nil]
  have hobjects : (Fields.metadata base mixins sets).objects = [] := by
    simp [Fields.metadata, Value.objects, Value.objectsOfEntries, hstrs]
  unfold spell Fields.metadataText Value.spellSafely
  rw [Value.spell?_congr _ fun o ho => absurd (hobjects ▸ ho) List.not_mem_nil]

/-- The value that a line stores first under the reserved name is declared. -/
theorem declared_of_stored {v : Value} (h : w.stored? id reservedField = some (.value v)) :
    ∃ f, w.declaration? id reservedField = some (.field f) ∧ f.default = some (w.spell v) := by
  obtain ⟨before, a, after, hline, hslot, hbefore⟩ := List.findSome?_eq_some_iff.1 h
  have hbook : reservedField ∉ bookkeepingNames := by decide
  have hnone : (before.findSome? fun x => (w.declared (w.ownersOf id) (w.cls x) reservedField).some?) = none :=
    List.findSome?_eq_none_iff.2 fun x hx => by
      rw [declared_of_unstored (hbefore x hx)]
      rfl
  rw [declaration?, if_neg (by simpa using hbook), hline, List.findSome?_append, hnone, Option.none_or, List.findSome?_cons]
  unfold declared fieldOf
  rw [hslot]
  exact ⟨_, rfl, rfl⟩

/-- A class that stores a record is listed with its text. -/
theorem default_of_record (h : w.stored? id reservedField = some (.value (Fields.metadata base mixins sets)))
    {r : SymbolRef} {above : List SymbolRef} {f : Field} (hf : f ∈ (w.inspect id r above).fields)
    (hname : f.name = reservedField) : f.default = some (Fields.metadataText base mixins sets) := by
  obtain ⟨g, hg, hdefault⟩ := declared_of_stored h
  have hlisted := mem_fields_inspect.1 hf
  rw [hname, hg] at hlisted
  cases hlisted
  rw [hdefault, spell_metadata]

section Composite

variable {S : String → Prop} {u : World} {l : Launch} {b : Blueprint} {isArtifact : Bool} {code : Source.Code}
  (tame : Tame S w) (kept : ¬S reservedField) (furnished : w.IsFurnished) (built : b.IsBuilt)
  (hcode : Source.compile isArtifact b = .ok code) (hname : l.name = b.name) (h : (execute l code).runFrom w = (.ok id, w'))
  (hev : Evolves S w' u)

include tame kept furnished hcode hname h hev

/-- What the class of a composite stores under the reserved name its line stores first, and does so ever after. -/
theorem exists_defines_of_execute : ∃ start v, Source.classOf b = .ok code.cls ∧
    Defines S w.modules.size code.cls start id v ∧
    ∀ slot, (v.cls id).slots.get? reservedField = some slot → u.stored? id reservedField = some slot := by
  have hcls := Source.classOf_of_compile hcode
  have hasked : code.cls.name = l.name := (Source.nodeName_eq_ok (Source.classOf_eq_ok hcls).2.2).trans hname.symm
  obtain ⟨m, v, -, hdefines, rfl⟩ := defined_of_execute tame h hasked
  obtain ⟨rest, hline⟩ := hdefines.exists_lineage ⟨furnished.classes, furnished.functions⟩
  have hlater : Evolves S v u := by
    refine Evolves.trans ?_ hev
    exact Evolves.of_eq rfl rfl rfl
  refine ⟨_, v, hcls, hdefines, fun slot hslot => ?_⟩
  rw [stored?, hlater.lineage_eq hdefines.known, hline, List.findSome?_cons, (hlater.keeps id hdefines.known).slots _ kept, hslot]

include built

/-- Unless a method takes its place, it is the composite's record. -/
theorem stored_of_execute (unrecorded : reservedField ∉ b.memberNames) : ∃ base mixins sets,
    b.fields.head? = some (Fields.reserved base mixins sets) ∧
      u.stored? id reservedField = some (.value (Fields.metadata base.path (mixins.map SymbolRef.path) sets)) := by
  obtain ⟨⟨base, mixins, sets, copied, hfields, hcopied⟩, -⟩ := built.records unrecorded
  obtain ⟨start, v, hcls, hdefines, hstored⟩ := exists_defines_of_execute tame kept furnished hcode hname h hev
  exact ⟨base, mixins, sets, by rw [hfields]; rfl, hstored _ (hdefines.record kept hcls hfields hcopied unrecorded)⟩

/-- Either way nothing forges a record there. -/
theorem isMetadataText_of_execute (filed : u.IsFiled)
    (marked : ∀ m ∈ b.methods, m.name = reservedField → m.signature.kind ≠ .ofInstance → b.lines.Pairwise Source.Line.Leaves)
    {r : SymbolRef} {above : List SymbolRef} {f : Field} (hf : f ∈ (u.inspect id r above).fields) (hfield : f.name = reservedField) :
    Fields.isMetadataText f.default = true := by
  by_cases unrecorded : reservedField ∉ b.memberNames
  · obtain ⟨base, mixins, sets, -, hstored⟩ := stored_of_execute tame kept furnished built hcode hname h hev unrecorded
    rw [default_of_record hstored hf hfield]
    exact Fields.isMetadataText_metadataText _ _ _
  · obtain ⟨m, hm, hmember⟩ := List.mem_map.1 (not_not.1 unrecorded)
    obtain ⟨start, v, hcls, hdefines, hstored⟩ := exists_defines_of_execute tame kept furnished hcode hname h hev
    obtain ⟨g, hg⟩ := hdefines.routine kept hcls built.nodup_memberNames hm hmember (marked m hm hmember)
    have hforges : u.forges id = false := by
      rw [forges, hstored _ hg]
      rfl
    have hrefuses : Fields.refuses (u.inspect id r above).fields = false := (refuses_inspect filed).trans hforges
    rw [Fields.refuses, List.any_eq_false] at hrefuses
    simpa [hfield] using hrefuses f hf

end Composite

end World

/--
The text of a record, whatever the paths in it are, is a literal of the record and is recognised as one. It is written into code as
it stands, whatever names there are, and is read there as the record. A contributor is refused only for a reserved field without
such a text. A class that stores a record is listed with its text; the class of a composite stores the composite's from when its
code is run on, unless a method takes the place of the record or something sets it, and is never one that is refused.
-/
theorem Fields.record_survives :
    (∀ (base : String) (mixins sets : List String),
      isLiteral (metadataText base mixins sets) = true ∧
      Literal.read? (metadataText base mixins sets) = some (metadata base mixins sets) ∧
      isMetadataText (some (metadataText base mixins sets)) = true) ∧
    (∀ (b : Blueprint) (origin : String) (base : SymbolRef) (mixins : List SymbolRef) (sets : List String),
      ∃ line text, Source.fieldLine b { reserved base mixins sets with origin } = .ok line ∧
        text = metadataText base.path (mixins.map SymbolRef.path) sets ∧ line.print = reservedField ++ " = " ++ text ∧
        Source.Layout.ReadsLine text.toList (metadata base.path (mixins.map SymbolRef.path) sets)) ∧
    (∀ {σ : Type} (p : Provider σ) (rs : List SymbolRef) (ms : List Manifest) (s s' : σ) (done : List FieldDef) (path : String),
      (rs.mapM p.manifest).runFrom s = (.ok ms, s') →
      ((addContributors p done rs).runFrom s).1 = .error (.refusal (.reservedField path)) →
        ∃ e ∈ rs.zip ms, e.1.path = path ∧ ∃ f ∈ e.2.fields, f.name = reservedField ∧ isMetadataText f.default = false) ∧
    (∀ (w : World) (id : Nat) (base : String) (mixins sets : List String) (r : SymbolRef) (above : List SymbolRef),
      w.stored? id reservedField = some (.value (metadata base mixins sets)) →
        ∀ f ∈ (w.inspect id r above).fields, f.name = reservedField → f.default = some (metadataText base mixins sets)) ∧
    ∀ (S : String → Prop) (w w' u : World) (b : Blueprint) (isArtifact : Bool) (code : Source.Code) (l : World.Launch) (id : Nat),
      b.IsBuilt → Source.compile isArtifact b = .ok code → l.name = b.name → w.IsFurnished → World.Tame S w → ¬S reservedField →
      (World.execute l code).runFrom w = (.ok id, w') → World.Evolves S w' u →
        (reservedField ∉ b.memberNames → ∃ base mixins sets, b.fields.head? = some (reserved base mixins sets) ∧
          u.stored? id reservedField = some (.value (metadata base.path (mixins.map SymbolRef.path) sets))) ∧
        (u.IsFiled → (∀ m ∈ b.methods, m.name = reservedField → m.signature.kind ≠ .ofInstance →
            b.lines.Pairwise Source.Line.Leaves) → ∀ r above, ∀ f ∈ (u.inspect id r above).fields, f.name = reservedField →
          isMetadataText f.default = true) := by
  refine ⟨fun base mixins sets => ⟨isLiteral_metadataText base mixins sets, read?_metadataText base mixins sets,
    isMetadataText_metadataText base mixins sets⟩, fun b origin base mixins sets => ?_,
    fun p rs ms s s' done path served h => exists_forged_of_refused served h,
    fun w id base mixins sets r above h f hf hname => World.default_of_record h hf hname,
    fun S w w' u b isArtifact code l id built hcode hname furnished tame kept h hev =>
      ⟨fun unrecorded => World.stored_of_execute tame kept furnished built hcode hname h hev unrecorded,
        fun filed marked r above f hf hfield =>
          World.isMetadataText_of_execute tame kept furnished built hcode hname h hev filed marked hf hfield⟩⟩
  refine ⟨_, _, Source.fieldLine_record b origin base mixins sets, rfl, ?_, Source.readsLine_metadataText _ _ _⟩
  simp [Source.FieldLine.print, Source.Init.print, fieldText?_metadataText, String.append_assoc]

/-- A table without mixins is no record. -/
example : Fields.isMetadataText (some "\x7b'base': 'shop:Cart', 'capability_sets': []\x7d") = false := by decide +kernel

/-- A cart, a rebate, and a composite of paths with quotes, a backslash, a line end and a zero character. -/
def World.parlour : World :=
  { fresh with
    classes := fresh.classes ++
      #[{ name := "Cart", qualname := "Cart", home := "shop", order := [7, objectId] },
        { name := "Rebate", qualname := "Rebate", home := "shop", order := [8, objectId],
          slots := [("rate", .routine .ofInstance 9)] },
        { name := "Offer", qualname := "Offer", home := "shop", order := [9, objectId],
          slots := [(reservedField, .value (Fields.metadata "it's" ["\"\\\n"] ["\x00"]))] }]
    functions := fresh.functions.push
      { name := "rate", qualname := "Rebate.rate", home := "shop", params := [{ name := "self" }], body := .nothing } }

/-- A sale of the cart and the rebate. -/
def reduction : Request where
  name := "Sale"
  base := .live 7 ⟨"shop", "Cart"⟩
  mixins := [.live 8 ⟨"shop", "Rebate"⟩]

/-- How its code is run where its symbols are at hand. -/
def clearance : World.Launch where
  file := "sale.py"
  module := "shop"
  name := "Sale"
  seed := [("Cart", .cls 7), ("Rebate", .cls 8)]

/-- A voucher whose reserved field is no record. -/
def forged : List Manifest :=
  [{ ref := ⟨"shop", "Voucher"⟩, fields := [{ name := reservedField, default := some "\x7b'base': 1\x7d" }] }]

/-- The offer keeps its record and the sale gets one, while the voucher is refused. -/
theorem Fields.record_survives_parlour :
    (∃ f ∈ (World.parlour.inspect 9 ⟨"shop", "Offer"⟩ []).fields, f.name = reservedField ∧
      f.default = some (metadataText "it's" ["\"\\\n"] ["\x00"])) ∧
    (∃ b code id w', Source.compile false b = .ok code ∧ (World.execute clearance code).runFrom World.parlour = (.ok id, w') ∧
      ∃ base mixins sets, b.fields.head? = some (reserved base mixins sets) ∧
        w'.stored? id reservedField = some (.value (metadata base.path (mixins.map SymbolRef.path) sets))) ∧
    ∃ m ∈ forged, ∃ f ∈ m.fields, f.name = reservedField ∧ isMetadataText f.default = false := by
  obtain ⟨-, -, refused, listed, stored⟩ := record_survives
  refine ⟨?_, ?_, ?_⟩
  · have hstored : World.parlour.stored? 9 reservedField = some (.value (metadata "it's" ["\"\\\n"] ["\x00"])) := by rfl
    have hnames : reservedField ∈ (World.parlour.inspect 9 ⟨"shop", "Offer"⟩ []).fields.map Field.name := by decide +kernel
    obtain ⟨f, hf, hname⟩ := List.mem_map.1 hnames
    exact ⟨f, hf, hname, listed _ _ _ _ _ ⟨"shop", "Offer"⟩ [] hstored f hf hname⟩
  · have hsets : ∀ f ∈ World.parlour.functions.toList, f.sets = [] := by decide +kernel
    have tame : World.Tame World.Settable World.parlour :=
      ⟨by unfold World.Settable; decide, by unfold World.Settable; decide, fun f hf name hname => by
        rw [hsets f (Array.mem_toList_iff.2 hf)] at hname
        cases hname⟩
    have furnished : World.parlour.IsFurnished := .of_more (by decide +kernel) Array.push_eq_append
    have hruns : (((Blueprint.build (Provider.live World.parlour) Session.defaults false reduction).runFrom
        { provider := {} }).1.toOption.bind fun b => (Source.compile false b).toOption.bind fun code =>
          ((World.execute clearance code).runFrom World.parlour).1.toOption.map fun _ => (b.name, b.memberNames)) =
        some ("Sale", ["rate"]) := by decide +kernel
    generalize hbuild : (Blueprint.build (Provider.live World.parlour) Session.defaults false reduction).runFrom
      { provider := {} } = built at hruns
    obtain ⟨outcome, t⟩ := built
    obtain ⟨b, hb, hruns⟩ := Option.bind_eq_some_iff.1 hruns
    obtain ⟨code, hcode, hruns⟩ := Option.bind_eq_some_iff.1 hruns
    obtain ⟨id, hid, hnames⟩ := Option.map_eq_some_iff.1 hruns
    obtain ⟨hname, hmembers⟩ := Prod.mk.inj hnames
    obtain rfl := Outcome.eq_ok_of_toOption hb
    have hcode := Outcome.eq_ok_of_toOption hcode
    generalize hexecute : (World.execute clearance code).runFrom World.parlour = executed at hid
    obtain ⟨outcome, w'⟩ := executed
    obtain rfl := Outcome.eq_ok_of_toOption hid
    exact ⟨b, code, id, w', hcode, hexecute, (stored World.Settable World.parlour w' w' b false code clearance id
      ⟨_, _, _, _, _, _, _, hbuild⟩ hcode hname.symm furnished tame (fun hset => hset.2 rfl) hexecute
      (World.Evolves.refl w')).1 (by rw [hmembers]; decide)⟩
  · have hserved : ([⟨"shop", "Voucher"⟩].mapM (Provider.ofManifests forged).manifest).runFrom () = (.ok forged, ()) := by rfl
    have hrefused : ((addContributors (Provider.ofManifests forged) [] [⟨"shop", "Voucher"⟩]).runFrom ()).1 =
        .error (.refusal (.reservedField "shop:Voucher")) := by decide +kernel
    obtain ⟨e, he, -, hbad⟩ := refused _ _ _ _ _ _ _ hserved hrefused
    exact ⟨e.2, (List.of_mem_zip he).2, hbad⟩

end Amalgam
