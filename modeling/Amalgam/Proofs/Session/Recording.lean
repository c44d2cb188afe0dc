import Amalgam.Proofs.Blueprint.Finals
import Amalgam.Proofs.Session.Passing
import Amalgam.Proofs.Session.Registry
import Amalgam.Proofs.Session.Roundtrip
import Amalgam.Proofs.World.Discovery

/-!
# Whom a composite records

A composite stores, under the reserved name, whom it is made of. A class that already stores something with a text there
must be a composite itself, or it is refused (`Session.exists_refused_of_forges`). Methods have no text, so they are not
looked at, and the method of a mixin takes the place of the record (`Session.mix_records`).
-/

namespace Amalgam

/-- The entries of the record that a composite keeps of its contributors. -/
def Header.record (h : Header) : List (Value × Value) :=
  [(.str "base", .str h.base), (.str "mixins", .list (h.mixins.map .str)),
    (.str "capability_sets", .list (h.capabilitySets.map .str))]

theorem Header.metadata_eq (h : Header) : Fields.metadata h.base h.mixins h.capabilitySets = .dict h.record := rfl

/-! ## What is stored under the reserved name -/

namespace World

variable {w : World} {id : Nat} {r : SymbolRef} {sets : List SymbolRef} {owners : List String}

/-- Whether the line of a class first stores, under the reserved name, something that has a text and is no record. -/
def forges (w : World) (id : Nat) : Bool :=
  ((w.stored? id reservedField).bind (w.textOf? reservedField)).any fun text => !Fields.isMetadataText (some text)

/-- What stores nothing under the reserved name declares nothing there, whatever it annotates. -/
theorem declared_of_unstored {a : Nat} (h : (w.cls a).slots.get? reservedField = none) :
    w.declared owners (w.cls a) reservedField = .nothing := by
  have hspecial : isSpecialName reservedField = true := by with_unfolding_all rfl
  unfold declared
  rw [h]
  cases (w.cls a).hints.get? reservedField with
  | none => rfl
  | some hint => simp [hspecial]

/-- Under the reserved name, all that is stored is declared, and nothing else. -/
theorem declares_reserved_iff (filed : w.IsFiled) (a : Nat) :
    (w.declared owners (w.cls a) reservedField).some?.isSome = ((w.cls a).slots.get? reservedField).isSome := by
  cases hslot : (w.cls a).slots.get? reservedField with
  | none =>
    rw [declared_of_unstored hslot]
    rfl
  | some slot =>
    cases hdeclared : w.declared owners (w.cls a) reservedField with
    | nothing => exact absurd rfl (eq_descriptor_of_not_declared (filed.holds hslot) hslot (Or.inl rfl) hdeclared).2
    | member s => rfl
    | field f => rfl

/-- A manifest is refused for its reserved field exactly if its class forges a record. -/
theorem refuses_inspect (filed : w.IsFiled) : Fields.refuses (w.inspect id r sets).fields = w.forges id := by
  have hbook : reservedField ∉ bookkeepingNames := by decide
  have hlisted : Fields.refuses (w.inspect id r sets).fields =
      ((w.declaration? id reservedField).bind Declared.field?).any fun f => !Fields.isMetadataText f.default := by
    have hany : Fields.refuses (w.inspect id r sets).fields = ((w.inspect id r sets).fields.filter fun f =>
        f.name == reservedField).any fun f => !Fields.isMetadataText f.default := by
      rw [List.any_filter]
      rfl
    rw [hany, (named_of_inspect id r sets reservedField).2]
    cases (w.declaration? id reservedField).bind Declared.field? <;> simp
  have hsame : w.declarer? id reservedField = w.keeper? id reservedField :=
    congrArg (fun first => (w.lineage id).find? first) (funext fun a => declares_reserved_iff filed a)
  rw [hlisted, forges, declaration?_eq_bind hbook, stored?_eq_bind, hsame]
  cases hkeeper : w.keeper? id reservedField with
  | none => rfl
  | some a =>
    have hkept := List.find?_some (p := fun a => ((w.cls a).slots.get? reservedField).isSome) hkeeper
    obtain ⟨slot, hslot⟩ := Option.isSome_iff_exists.1 hkept
    simp only [Option.bind_some, hslot]
    cases hdeclared : w.declared (w.ownersOf id) (w.cls a) reservedField with
    | nothing => exact absurd rfl (eq_descriptor_of_not_declared (filed.holds hslot) hslot (Or.inl rfl) hdeclared).2
    | member s =>
      obtain ⟨slot', hslot', hmember⟩ := Option.bind_eq_some_iff.1 (declared_eq_member_iff.1 hdeclared)
      cases hslot.symm.trans hslot'
      cases slot <;> first | rfl | cases hmember
    | field f =>
      obtain ⟨-, ⟨slot', hslot', hsome, htext⟩ | ⟨hnone, -⟩⟩ := of_declared_field hdeclared
      · cases hslot.symm.trans hslot'
        obtain ⟨text, hdefault⟩ := Option.isSome_iff_exists.1 hsome
        simp [Declared.some?, Declared.field?, htext, hdefault]
      · rw [hslot] at hnone
        cases hnone

/-- Where a method has the reserved name, a class that is defined stores its function there. -/
theorem Defines.routine {S : String → Prop} {w' : World} {home : Nat} {k : Source.Class} {b : Blueprint} {m : MethodDef}
    (h : Defines S home k w id w') (kept : ¬S reservedField) (hk : Source.classOf b = .ok k)
    (distinct : (b.methods.map MethodDef.name).Nodup) (hm : m ∈ b.methods) (hname : m.name = reservedField)
    (marked : m.signature.kind ≠ .ofInstance → b.lines.Pairwise Source.Line.Leaves) :
    ∃ f, (w'.cls id).slots.get? reservedField = some (.routine m.signature.kind f) := by
  obtain ⟨-, done, c, rest, hmethods, hc, hrest⟩ := Source.exists_method_of_classOf hk distinct hm
  obtain ⟨hcname, hckind, -⟩ := Source.methodOf_eq_ok hc
  have hreserved : Text.privateName k.name c.name = reservedField :=
    Text.privateName_eq_reservedField.2 (hcname.trans hname)
  have hlater : ∀ c' ∈ rest, Text.privateName k.name c'.name ≠ Text.privateName k.name c.name := by
    intro c' hc' heq
    obtain ⟨m', -, hname', hne⟩ := hrest c' hc'
    rw [hreserved, Text.privateName_eq_reservedField] at heq
    exact hne (hname'.symm.trans (heq.trans hname.symm))
  have hmarks : c.kind ≠ .ofInstance → k.lines.Pairwise Source.Line.Leaves := by
    rw [hckind, Source.lines_eq hk]
    exact marked
  obtain ⟨_, scope, made, hleaves, hslots⟩ := h.slots
  obtain ⟨f, hf⟩ := exists_slot_of_leaves hmethods hmarks hlater hleaves
  rw [hreserved, hckind] at hf
  refine ⟨f, ?_⟩
  rw [hslots reservedField kept, hf, Option.map_some, impliedKind_eq_self (by decide)]

end World

/-! ## Plans that are refused -/

namespace Roster

variable {w : World} {start c c' : Roster}

theorem exists_capabilitySets {r : SymbolRef} (h : r.path ∈ c.classes.keys) :
    ∃ sets c', ((Provider.live w).capabilitySets r).runFrom c = (.ok sets, c') ∧ c.Extends c' := by
  obtain ⟨m, c', hm⟩ := exists_manifest (w := w) h
  have hext := manifest_extends (w := w) c r c (Extends.refl c)
  rw [hm] at hext
  exact ⟨m.capabilitySets, c', Act.bind_eq_ok.2 ⟨m, c', hm, rfl⟩, hext⟩

end Roster

namespace Blueprint

variable {w : World} {x : Mix} {t : Planning Roster}

theorem exists_served {rs : List SymbolRef} (h : ∀ r ∈ rs, r.path ∈ t.provider.classes.keys) :
    ∃ served t', (rs.mapM fun r => Planner.ask ((Provider.live w).capabilitySets r)).runFrom t = (.ok served, t') := by
  induction rs generalizing t with
  | nil => exact ⟨[], t, rfl⟩
  | cons r rs ih =>
    obtain ⟨sets, c, hsets, hext⟩ := Roster.exists_capabilitySets (w := w) (h r List.mem_cons_self)
    obtain ⟨served, t', hserved⟩ := ih (t := { t with provider := c }) fun r hr =>
      hext.mem_keys (h r (List.mem_cons_of_mem _ hr))
    have hask : (Planner.ask ((Provider.live w).capabilitySets r)).runFrom t = (.ok sets, { t with provider := c }) := by
      rw [Planner.runFrom_ask, hsets]
    rw [List.mapM_cons]
    exact ⟨_, _, Act.bind_eq_ok.2 ⟨sets, _, hask, Act.bind_eq_ok.2 ⟨served, t', hserved, rfl⟩⟩⟩

theorem exists_implied {rs : List SymbolRef} (h : ∀ r ∈ rs, r.path ∈ t.provider.classes.keys) :
    ∃ above t', (implied (Provider.live w) rs).runFrom t = (.ok above, t') := by
  induction rs generalizing t with
  | nil => exact ⟨[], t, rfl⟩
  | cons r rs ih =>
    obtain ⟨sets, c, hsets, hext⟩ := Roster.exists_capabilitySets (w := w) (h r List.mem_cons_self)
    obtain ⟨above, t', habove⟩ := ih (t := { t with provider := c }) fun r hr =>
      hext.mem_keys (h r (List.mem_cons_of_mem _ hr))
    have hask : (Planner.ask ((Provider.live w).capabilitySets r)).runFrom t = (.ok sets, { t with provider := c }) := by
      rw [Planner.runFrom_ask, hsets]
    exact ⟨_, _, Act.bind_eq_ok.2 ⟨sets, _, setsAbove_of_ok hask, Act.bind_eq_ok.2 ⟨above, t', habove, rfl⟩⟩⟩

theorem exists_minimal (rs : List SymbolRef) (h : ∀ r ∈ rs, r.path ∈ t.provider.classes.keys) :
    ∃ kept t', (minimal (Provider.live w) rs).runFrom t = (.ok kept, t') := by
  obtain ⟨above, t', habove⟩ := exists_implied (w := w) h
  exact ⟨_, t', Act.bind_eq_ok.2 ⟨above, t', habove, rfl⟩⟩

/-- The header of classes that are resolved is planned without fail. -/
theorem exists_planHeader (name : String) (listed : t.provider.Listed) (h : ∀ r ∈ x.participants, r.path ∈ t.provider.classes.keys) :
    ∃ planned t', (planHeader (Provider.live w) name x).runFrom t = (.ok planned, t') := by
  obtain ⟨served, u, hserved⟩ := exists_served (w := w) h
  obtain ⟨extra, v, hextra⟩ := exists_minimal (w := w) (t := u) ((union served.flatten).filter fun r =>
      !(x.base.path :: (served.headD []).map SymbolRef.path).contains r.path) fun r hr => by
    obtain ⟨sets, hsets, hr⟩ := List.mem_flatten.1 (mem_union.1 (List.mem_filter.1 hr).1)
    exact Roster.claimed_of_served listed hserved sets hsets r hr
  exact ⟨_, v, Act.bind_eq_ok.2 ⟨served, u, hserved, Act.bind_eq_ok.2 ⟨extra, v, hextra, rfl⟩⟩⟩

end Blueprint

namespace Fields

variable {w : World} {start c : Roster}

/-- The first class that forges a record is named as the reason why no fields can be collected. -/
theorem addContributors_of_forges {pairs : List (SymbolRef × Nat)} (filed : w.IsFiled) (refers : start.Refers pairs)
    (reads : Roster.Reads w start c) {done : List FieldDef} {e : SymbolRef × Nat}
    (h : pairs.find? (fun e => w.forges e.2) = some e) :
    ((addContributors (Provider.live w) done (pairs.map Prod.fst)).runFrom c).1 =
      .error (.refusal (.reservedField e.1.path)) := by
  induction pairs generalizing done c with
  | nil => cases h
  | cons first pairs ih =>
    have hclass := refers first List.mem_cons_self
    obtain ⟨m, d, hm⟩ := Roster.exists_manifest (w := w) (Entries.mem_keys_of_get? (reads.grown _ _ hclass))
    obtain ⟨r, sets, rfl⟩ := (Roster.keeps_reads w start).good reads hm first.2 hclass
    have hserved : ((Provider.live w).manifest first.1).runFrom c = (.ok (w.inspect first.2 r sets), d) := hm
    have hreads := (Roster.keeps_reads w start).manifest first.1 c reads
    rw [hserved] at hreads
    rw [List.map_cons, addContributors, Act.runFrom_bind, hserved]
    dsimp only
    rw [Act.runFrom_bind, Act.runFrom_ofExcept, addAll_eq, World.refuses_inspect filed]
    rw [List.find?_cons] at h
    cases hforges : w.forges first.2 with
    | true =>
      rw [hforges] at h
      cases h
      rfl
    | false =>
      rw [hforges] at h
      exact ih (fun e he => refers e (List.mem_cons_of_mem _ he)) hreads h

end Fields

namespace Session

open Blueprint

variable {w : World} {d : Defaults} {strict : Bool} {q : Request} {b : Blueprint} {base : Nat} {mixins : List Nat}

/-- Where a class forges a record, nothing is planned; if all else is in order, the first such class is the reason. -/
theorem exists_refused_of_forges (filed : w.IsFiled)
    (types : (q.base :: q.mixins).map (TypeLike.class? w) = (base :: mixins).map some)
    (forged : ∃ a ∈ base :: mixins, w.forges a = true) :
    ∃ e, ((build (Provider.live w) d strict q).runFrom { provider := {} }).1 = .error e ∧
      (Text.isFreeName q.name = true → ∀ x t, (resolveMix (Provider.live w) q).runFrom { provider := {} } = (.ok x, t) →
        ∃ r a, (x.participants.zip (base :: mixins)).find? (fun e => w.forges e.2) = some (r, a) ∧
          e = .refusal (.reservedField r.path)) := by
  by_cases hname : Text.isFreeName q.name = true
  · generalize hmix : (resolveMix (Provider.live w) q).runFrom { provider := {} } = resolved
    obtain ⟨outcome, t⟩ := resolved
    cases outcome with
    | error e =>
      have houtline : (outline (Provider.live w) d strict q).runFrom { provider := {} } = (.error e, t) := by
        unfold outline
        rw [if_neg (by simpa using hname)]
        show (resolveMix (Provider.live w) q >>= _).runFrom _ = _
        rw [Act.runFrom_bind, hmix]
      exact ⟨e, by rw [build_of_outline_error houtline], fun _ x t h => by cases h⟩
    | ok x =>
      obtain ⟨hmanifests, hpairs⟩ := pairs_of_resolveMix rfl hmix
      obtain ⟨pairs, hrefs, hids, hrefers⟩ := Roster.exists_refers hpairs types
      have hzip : x.participants.zip (base :: mixins) = pairs := (List.zip_of_prod hrefs hids).symm
      obtain ⟨⟨r, a⟩, hfirst⟩ : ∃ e, pairs.find? (fun e => w.forges e.2) = some e := by
        obtain ⟨a, ha, hforges⟩ := forged
        rw [← hids] at ha
        obtain ⟨e, he, rfl⟩ := List.mem_map.1 ha
        exact Option.isSome_iff_exists.1 (List.find?_isSome.2 ⟨e, he, hforges⟩)
      have hlisted : t.provider.Listed := fun e he => by
        rw [hmanifests] at he
        cases he
      obtain ⟨⟨header, extra⟩, u, hheader⟩ := exists_planHeader (w := w) (x := x) q.name hlisted fun r hr => by
        rw [← hrefs] at hr
        obtain ⟨e, he, rfl⟩ := List.mem_map.1 hr
        exact Entries.mem_keys_of_get? (hrefers e he)
      have hreads := (planHeader_eq_ok (Roster.keeps_reads w t.provider) (Roster.Reads.new hmanifests) hheader).2.2.2
      obtain ⟨s, hfields⟩ : ∃ s, (Fields.synthesize (Provider.live w) x.base x.mixins header.capabilitySets).runFrom
          u.provider = (.error (.refusal (.reservedField r.path)), s) := by
        unfold Fields.synthesize
        rw [show x.base :: x.mixins = pairs.map Prod.fst from hrefs.symm]
        exact ⟨_, Prod.ext (Fields.addContributors_of_forges filed hrefers hreads hfirst) rfl⟩
      have houtline : (outline (Provider.live w) d strict q).runFrom { provider := {} } =
          (.error (.refusal (.reservedField r.path)), { u with provider := s }) := by
        unfold outline
        rw [if_neg (by simpa using hname)]
        show (resolveMix (Provider.live w) q >>= _).runFrom _ = _
        rw [Act.runFrom_bind, hmix]
        dsimp only
        rw [Act.runFrom_bind, hheader]
        dsimp only
        rw [Act.runFrom_bind, Planner.runFrom_ask, hfields]
      refine ⟨_, by rw [build_of_outline_error houtline], fun _ x' t' h => ?_⟩
      cases h
      exact ⟨r, a, by rw [hzip, hfirst], rfl⟩
  · have houtline : (outline (Provider.live w) d strict q).runFrom { provider := {} } =
        (.error (.refusal (.badClassName q.name)), { provider := {} }) := by
      unfold outline
      rw [if_pos (by simpa using hname)]
      rfl
    exact ⟨_, by rw [build_of_outline_error houtline], fun h => absurd h hname⟩

/-- Whatever else is asked for, a member that a mixin offers gets a method. -/
theorem mem_memberNames_of_offered {name : String} {t' : Planning Roster}
    (types : (q.base :: q.mixins).map (TypeLike.class? w) = (base :: mixins).map some)
    (hb : (build (Provider.live w) d strict q).runFrom { provider := {} } = (.ok b, t'))
    (offered : ∃ m ∈ mixins, w.offer? name .mixin m ≠ none) : name ∈ b.memberNames := by
  obtain ⟨o, u, claims, houtline, -, rfl⟩ := build_eq_ok hb
  have hpaths := (outline_eq_ok (Provider.keeps_trivial _) trivial houtline).participants
  obtain ⟨r, others, rfl, plans, -, hbase, v, v', -, hmethods⟩ := plansClasses_of_outline types houtline
  rw [plans.participants, List.map_map] at hpaths
  have hmixins : w.definers name .mixin others ≠ [] := by
    rw [Ne, World.definers_eq_nil]
    push Not
    exact offered
  have hget := plans.members name
  have hneeds : o.context.needsMethod name ((w.definers name .base ((r, base) :: others)).map fun x => x.1.1) = true := by
    unfold Context.needsMethod
    rw [World.definers]
    cases w.offer? name .base base with
    | none =>
      -- The first definition is that of a mixin, which is not the base.
      obtain ⟨x, more, hmore⟩ := List.exists_cons_of_ne_nil hmixins
      have hother : x.1.1 ≠ r := by
        rintro rfl
        have hx : x.1 ∈ others := mem_definers (hmore ▸ List.mem_cons_self)
        exact (List.nodup_cons.1 hpaths).1 (List.mem_map.2 ⟨x.1, hx, rfl⟩)
      simp [hmore, hbase, hother]
    | some s =>
      have hlength : 0 < (w.definers name .mixin others).length := List.length_pos_iff.2 hmixins
      simp [hlength]
  have hne : w.definers name .base ((r, base) :: others) ≠ [] := by
    rw [World.definers]
    exact fun h => hmixins (List.append_eq_nil_iff.1 h).2
  rw [if_neg hne] at hget
  show name ∈ o.methods.map MethodDef.name
  rw [(planMethods_eq hmethods).1, Context.names_flatMap_methodsOf]
  refine List.mem_map.2 ⟨_, List.mem_filter.2 ⟨Entries.mem_of_get? hget, ?_⟩, rfl⟩
  rw [Bool.and_eq_true, List.map_map]
  exact ⟨by simpa using hne, hneeds⟩

variable {p p' : Session} {settings : Settings} {binds : Bool} {id : Nat}

/-- A composite that is made of classes records them as its plan says, unless a method takes the place of the record. -/
theorem records_of_defines {k : Source.Class} {start u : World} {S : String → Prop} {home : Nat} {t' : Planning Roster}
    (hb : (build (Provider.live w) d strict q).runFrom { provider := {} } = (.ok b, t')) (kept : ¬S reservedField)
    (hk : Source.classOf b = .ok k) (hdefines : World.Defines S home k start id u) :
    (reservedField ∉ b.memberNames → (u.cls id).slots.get? reservedField = some (.value (.dict b.header.record))) ∧
      ∀ m ∈ b.methods, m.name = reservedField → (m.signature.kind ≠ .ofInstance → b.lines.Pairwise Source.Line.Leaves) →
        ∃ f, (u.cls id).slots.get? reservedField = some (.routine m.signature.kind f) := by
  constructor
  · intro unrecorded
    obtain ⟨o, u', claims, houtline, -, rfl⟩ := build_eq_ok hb
    obtain ⟨copied, hfields, hcopied⟩ := (outline_eq_ok (Provider.keeps_trivial _) trivial houtline).fields
    obtain ⟨v, v', -, hheader, -⟩ := stages_of_outline houtline
    obtain ⟨hbase, hmixins⟩ := List.cons.inj (paths_of_planHeader hheader)
    have hrecord := hdefines.record kept hk hfields (fun f hf => (hcopied f hf).1) unrecorded
    rw [hrecord, ← hbase, show o.mix.mixins.map SymbolRef.path = o.header.mixins from hmixins.symm]
    exact congrArg (some ∘ Slot.value) o.header.metadata_eq
  · exact fun m hm hname marked => hdefines.routine kept hk (nodup_names_of_build hb) hm hname marked

theorem runFrom_contributors_of_routine {kind : MemberKind} {f : Nat}
    (h : (p.world.cls id).slots.get? reservedField = some (.routine kind f)) :
    (contributors id).runFrom p = (.error (.refusal (.notComposite (p.world.spellClass id))), p) := by
  unfold contributors
  rw [Act.runFrom_bind, Act.runFrom_get]
  dsimp only
  rw [h]
  rfl

/--
A request for classes, in a session where nothing sets the name or the record of a class. If a class forges a record, no
composite is made, and the first such class is the reason if all else is in order. A composite that is made records whom its
plan says that it is made of, unless a method takes the place of the record, and then it is taken for no composite. Such
a method there is wherever a mixin offers one.
-/
theorem mix_records (tame : World.Tame World.Settable p.world) (filed : p.world.IsFiled)
    (types : (q.base :: q.mixins).map (TypeLike.class? p.world) = (base :: mixins).map some) :
    ((∃ a ∈ base :: mixins, p.world.forges a = true) →
      ∃ e, ((mix .live settings binds q).runFrom p).1 = .error e ∧ (Text.isFreeName q.name = true →
        ∀ x t, (resolveMix (Provider.live p.world) q).runFrom { provider := {} } = (.ok x, t) →
          ∃ r a, (x.participants.zip (base :: mixins)).find? (fun e => p.world.forges e.2) = some (r, a) ∧
            e = .refusal (.reservedField r.path))) ∧
    ∀ id p', (mix .live settings binds q).runFrom p = (.ok id, p') →
      ∃ b, (planned .live settings q p.world).1 = .ok b ∧
        (reservedField ∉ b.memberNames → (contributors id).runFrom p' = (.ok b.header.record, p')) ∧
        (∀ m ∈ b.methods, m.name = reservedField →
          (m.signature.kind ≠ .ofInstance → b.lines.Pairwise Source.Line.Leaves) →
          (contributors id).runFrom p' = (.error (.refusal (.notComposite (p'.world.spellClass id))), p')) ∧
        ((∃ m ∈ mixins, p.world.offer? reservedField .mixin m ≠ none) → reservedField ∈ b.memberNames) := by
  constructor
  · intro forged
    obtain ⟨e, he, hreason⟩ := exists_refused_of_forges filed types forged
    refine ⟨e, ?_, hreason⟩
    have hplanned : (planned .live settings q p.world).1 = .error e := he
    rw [outcome_mix, hplanned]
  · intro id p' h
    rw [runFrom_mix] at h
    generalize hplan : (plan .live settings q).runFrom p = r at h
    obtain ⟨outcome, p₁⟩ := r
    cases outcome with
    | error e => cases h
    | ok b =>
      obtain ⟨hworld, t', hb⟩ := build_of_plan hplan
      have hrun := activation_of_activate h
      rw [hworld] at hrun
      obtain ⟨k, names, u, modules, hk, -, hu, hdefines⟩ := defines_of_activation tame hrun
      obtain ⟨hrecord, hroutine⟩ := records_of_defines (S := World.Settable) hb (fun hset => hset.2 rfl) hk hdefines
      have hslots : (p'.world.cls id).slots = (u.cls id).slots := by rw [hu]; rfl
      rw [← hslots] at hrecord hroutine
      have hplanned : (planned .live settings q p.world).1 = .ok b := by
        rw [runFrom_plan] at hplan
        exact congrArg Prod.fst hplan
      refine ⟨b, hplanned, fun unrecorded => runFrom_contributors (hrecord unrecorded), fun m hm hname marked => ?_,
        mem_memberNames_of_offered types hb⟩
      obtain ⟨f, hf⟩ := hroutine m hm hname marked
      exact runFrom_contributors_of_routine hf

/-- A cart; a rebate that has a method under the reserved name, and a voucher that has a number there. -/
def booth : Session where
  world :=
    { World.fresh with
      classes := World.fresh.classes ++
        #[{ name := "Cart", qualname := "Cart", home := "shop", order := [7, World.objectId],
            slots := [("total", .routine .ofInstance 9)] },
          { name := "Rebate", qualname := "Rebate", home := "shop", order := [8, World.objectId],
            slots := [(reservedField, .routine .ofInstance 9)] },
          { name := "Voucher", qualname := "Voucher", home := "shop", order := [9, World.objectId],
            slots := [(reservedField, .value (.int 1))] }]
      functions := World.fresh.functions.push
        { name := "total", qualname := "Cart.total", home := "shop", params := [{ name := "self" }], body := .nothing } }
  files := { here := ⟨"/", ["shop"]⟩ }

def barter (mixin : TypeLike) : Request where
  name := "Barter"
  base := .live 7 ⟨"shop", "Cart"⟩
  mixins := [mixin]

/-- With the rebate, a composite is made that is taken for none; the voucher is refused. -/
theorem mix_records_booth :
    (∃ id p', (mix .live {} false (barter (.live 8 ⟨"shop", "Rebate"⟩))).runFrom booth = (.ok id, p') ∧
      (contributors id).runFrom p' = (.error (.refusal (.notComposite (p'.world.spellClass id))), p')) ∧
    ((mix .live {} false (barter (.live 9 ⟨"shop", "Voucher"⟩))).runFrom booth).1 =
      .error (.refusal (.reservedField "shop:Voucher")) := by
  have hsets : ∀ f ∈ booth.world.functions.toList, f.sets = [] := by decide +kernel
  have tame : World.Tame World.Settable booth.world :=
    ⟨by unfold World.Settable; decide, by unfold World.Settable; decide, fun f hf name hname => by
      rw [hsets f (Array.mem_toList_iff.2 hf)] at hname
      cases hname⟩
  have filed : booth.world.IsFiled := by decide +kernel
  constructor
  · have hmix : ((mix .live {} false (barter (.live 8 ⟨"shop", "Rebate"⟩))).runFrom booth).1.toOption.isSome = true := by
      decide +kernel
    have hkinds : ((planned .live {} (barter (.live 8 ⟨"shop", "Rebate"⟩)) booth.world).1.toOption.map fun b =>
        b.methods.map fun m => (m.name, m.signature.kind)) = some [(reservedField, .ofInstance)] := by decide +kernel
    generalize hrun : (mix .live {} false (barter (.live 8 ⟨"shop", "Rebate"⟩))).runFrom booth = r at hmix
    obtain ⟨outcome, p'⟩ := r
    obtain ⟨id, rfl⟩ := Outcome.exists_eq_ok_of_isSome hmix
    have types : [TypeLike.live 7 ⟨"shop", "Cart"⟩, .live 8 ⟨"shop", "Rebate"⟩].map (TypeLike.class? booth.world) =
        [7, 8].map some := rfl
    obtain ⟨b, hplanned, -, hroutine, -⟩ := (mix_records tame filed types).2 id p' hrun
    rw [hplanned] at hkinds
    obtain ⟨m, ms, hms, hm, -⟩ := List.map_eq_cons_iff.1 (Option.some.inj hkinds)
    rw [Prod.mk.injEq] at hm
    exact ⟨id, p', rfl, hroutine m (hms ▸ List.mem_cons_self) hm.1 fun hkind => absurd hm.2 hkind⟩
  · have types : [TypeLike.live 7 ⟨"shop", "Cart"⟩, .live 9 ⟨"shop", "Voucher"⟩].map (TypeLike.class? booth.world) =
        [7, 9].map some := rfl
    have hforges : booth.world.forges 7 = false ∧ booth.world.forges 9 = true := by decide +kernel
    have hresolve : ((resolveMix (Provider.live booth.world) (barter (.live 9 ⟨"shop", "Voucher"⟩))).runFrom
        ({ provider := {} } : Planning Roster)).1.toOption = some ⟨⟨"shop", "Cart"⟩, [⟨"shop", "Voucher"⟩]⟩ := by
      decide +kernel
    obtain ⟨e, he, hreason⟩ : ∃ e, ((mix .live {} false (barter (.live 9 ⟨"shop", "Voucher"⟩))).runFrom booth).1 = .error e ∧
      _ := (mix_records tame filed types).1 ⟨9, by decide, hforges.2⟩
    generalize hrun : (resolveMix (Provider.live booth.world) (barter (.live 9 ⟨"shop", "Voucher"⟩))).runFrom
      ({ provider := {} } : Planning Roster) = r at hresolve
    obtain ⟨outcome, t⟩ := r
    cases outcome with
    | error e => cases hresolve
    | ok x =>
      cases hresolve
      obtain ⟨r, a, hfirst, rfl⟩ := hreason (by decide +kernel) _ t hrun
      simp only [Blueprint.Mix.participants, List.zip_cons_cons, List.find?_cons, hforges.1, hforges.2] at hfirst
      cases hfirst
      exact he
end Session

end Amalgam
