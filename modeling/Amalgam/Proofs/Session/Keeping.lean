import Amalgam.Proofs.Session.Mixing
import Amalgam.Proofs.Session.Standing
import Amalgam.Proofs.Source.FirstSeen
import Amalgam.Proofs.World.Storing

/-!
# Values that composites carry

A composite has the values of its contributors: those of their fields, and those that the parameters of their methods have by
default. Code has each as a literal, if what it is written as is one, and reads it back from the contributor if not.
`Session.carried_iff` says when this gives the contributor's own value: always, for a value that can be told from its written
form, if what is written is what the contributor finds, and if the composite stores it under the name at all.
-/

namespace Amalgam

open Source (receiverOf)
open Text (privateName)
open World (Tame Evolves)

/-- No code sets a name on a class, no field is set on another object, and where a method of the name has a mark, the marks are
what they seem. -/
structure Blueprint.Spares (w : World) (b : Blueprint) (name : String) : Prop where
  unset : ∀ F ∈ w.functions, name ∉ F.sets
  undotted : ∀ f ∈ b.fields, '.' ∉ f.name.toList
  marks : (∃ m ∈ b.methods, m.name = name ∧ m.signature.kind ≠ .ofInstance) → b.lines.Pairwise Source.Line.Leaves

/-- Where code has the text of a field as a literal, the literal is the value. -/
def FieldDef.Reads (f : FieldDef) (text : String) (v : Value) : Prop :=
  f.isDescriptor = false → isLiteral text = true → World.literalValue text = v

theorem Blueprint.Spares.tame {w : World} {b : Blueprint} {name : String} (spares : b.Spares w name)
    (hname : name ∉ constructorNames) : Tame (· ≠ name) w where
  init := by
    rintro rfl
    exact hname (by decide)
  hook := by
    rintro rfl
    exact hname (by decide)
  sets F hF other hother := by
    rintro rfl
    exact spares.unset F hF hother

namespace World

variable {w u : World} {id : Nat} {name : String}

/-- What is stored in the end as a value was one. -/
theorem eq_of_impliedKind_slotOf {v x : Value} (h : impliedKind name (u.slotOf x) = .value v) : x = v := by
  unfold slotOf at h
  split at h
  · split at h
    · unfold impliedKind at h
      dsimp only at h
      split at h
      · cases h
      · split at h <;> cases h
    · cases h
      rfl
  · cases h
    rfl

/-- Of a field with a value, the class finds something. -/
theorem exists_slot_of_field {g : Field} (h : w.declaration? id name = some (.field g)) (hdefault : g.default ≠ none) :
    ∃ slot, w.slot? id name = some slot := by
  obtain ⟨-, a, ha, hdeclared⟩ := exists_declared_of_declaration? h
  have hstored : (w.cls a).slots.get? name ≠ none := by
    intro hnone
    unfold declared at hdeclared
    rw [hnone] at hdeclared
    dsimp only at hdeclared
    split at hdeclared
    · split at hdeclared <;> cases hdeclared
      exact hdefault rfl
    · cases hdeclared
  obtain ⟨slot, hslot⟩ := Option.ne_none_iff_exists'.1 hstored
  rw [slot?, ← Option.isSome_iff_exists, List.findSome?_isSome_iff]
  exact ⟨a, (List.mem_filter.1 ha).1, by rw [hslot]; rfl⟩

theorem restored_of_sound {v : Value} (sound : v.IsSound) : w.restored v = v :=
  restored_eq_iff.2 fun hliteral => (sound.isSettled w hliteral).1

/-- Where each parameter comes back with the default that is restored, so do all. -/
theorem map_default_eq {b : Blueprint} {function : Source.Target} {owner : String} {evaluates : Source.Formal → Parameter → Prop}
    {qs xs : List Parameter} {fs : List Source.Formal}
    (hfs : List.Forall₂ (fun p f => Source.formalOf b function p = .ok f) (qs.map w.paramOf) fs)
    (hxs : List.Forall₂ evaluates (fs.map (·.within owner)) xs)
    (restores : ∀ q ∈ qs, ∀ f x, Source.formalOf b function (w.paramOf q) = .ok f → evaluates (f.within owner) x →
      x.default = q.default.map w.restored) :
    xs.map Parameter.default = qs.map fun q => q.default.map w.restored := by
  induction qs generalizing fs xs with
  | nil =>
    cases hfs
    cases hxs
    rfl
  | cons q qs ih =>
    cases hfs with
    | cons hf hfs =>
      cases hxs with
      | cons hx hxs =>
        rw [List.map_cons, List.map_cons, restores q List.mem_cons_self _ _ hf hx,
          ih hfs hxs fun q hq => restores q (List.mem_cons_of_mem _ hq)]

end World

namespace Session

open Blueprint

variable {p p₁ p' : Session} {settings settings' : Settings} {binds strict : Bool} {q : Request} {b : Blueprint}
  {t' : Planning Roster} {id C : Nat} {w w' : World} {f : FieldDef} {m : MethodDef}

/-- No two fields of a composite have one name. -/
theorem nodup_fieldNames_of_build (hb : (build (Provider.live w) defaults strict q).runFrom { provider := {} } = (.ok b, t')) :
    (b.fields.map FieldDef.name).Nodup := by
  obtain ⟨o, u, claims, ho, -, rfl⟩ := build_eq_ok hb
  obtain ⟨-, _, v, _, _, _, -, -, hfields, -⟩ := runs_of_outline ho
  have hreserved : ([Fields.reserved o.mix.base o.mix.mixins o.header.capabilitySets].map FieldDef.name).Nodup :=
    List.nodup_singleton _
  exact Fields.nodup_names_of_addContributors hreserved (Planner.ask_eq_ok hfields)

/-! ## Fields -/

section Field

variable {slot : Slot} {text : String}

variable (hb : (build (Provider.live w) defaults strict q).runFrom { provider := {} } = (.ok b, t'))
  (h : activation settings b w = (.ok id, w')) (closed : w.IsClosed) (hf : f ∈ b.fields) (spares : b.Spares w f.name)
  (hspecial : f.name ∉ constructorNames) (alone : ∀ g ∈ b.fields, privateName b.name g.name = f.name → g.name = f.name)

include hb h spares hspecial

/-- No class stores a value under the name of a method. -/
theorem not_value_of_method (hm : m ∈ b.methods) (hname : m.name = f.name) (v : Value) :
    (w'.cls id).slots.get? f.name ≠ some (.value v) := by
  obtain ⟨names, c, g, G, generates⟩ := exists_generates hb h hm (spares.tame hspecial) (fun hkept => hkept hname)
    spares.undotted fun hkind => spares.marks ⟨m, hm, hname, hkind⟩
  rw [← hname, generates.stored]
  exact fun heq => Slot.noConfusion (Option.some.inj heq)

include alone

/-- A class stores nothing under a name that is private to it, unless a method has the name. -/
theorem not_stored_of_private (hprivate : privateName b.name f.name ≠ f.name) (hmethods : ∀ m ∈ b.methods, m.name ≠ f.name) :
    (w'.cls id).slots.get? f.name = none := by
  obtain ⟨k, names, u, modules, hk, -, rfl, hdefines⟩ := defines_of_activation (spares.tame hspecial) h
  obtain ⟨hfields, -, hname⟩ := Source.classOf_eq_ok hk
  have hname := Source.nodeName_eq_ok hname
  refine hdefines.get?_slots_of_silent (fun hkept => hkept rfl) (fun line hline heq => ?_) fun c hc heq => ?_
  · obtain ⟨g, hg, hgline⟩ := Outcome.exists_mem_of_forall₂ (Outcome.mapM_eq_ok.1 hfields).flip hline
    rw [Source.fieldLine_name hgline, hname] at heq
    rw [alone g hg heq] at heq
    exact hprivate heq
  · obtain ⟨m, hm, -, hplain⟩ := exists_method_of_code hb hk hc
    exact hmethods m hm ((hplain k.name).symm.trans heq)

include closed hf

/-- Under a name of its own, a class stores what the line of the field gives: what the field's own class finds, or the literal. -/
theorem exists_given (hbinding : b.bindings.get? f.origin = some (.cls C)) (hslot : w.slot? C f.name = some slot)
    (hdefault : f.default = some text) (named : ∀ owner ∈ b.aliases.get? f.origin, privateName b.name owner = owner)
    (hplain : privateName b.name f.name = f.name) (hmethods : ∀ m ∈ b.methods, m.name ≠ f.name) :
    ∃ u value, Evolves (· ≠ f.name) w u ∧
      (w'.cls id).slots.get? f.name = some (World.impliedKind f.name (u.slotOf value)) ∧
      (value = World.throughClass C slot ∧ (f.isDescriptor = false → isLiteral text = false) ∨
        value = World.literalValue text ∧ f.isDescriptor = false ∧ isLiteral text = true) := by
  have htame := spares.tame hspecial
  obtain ⟨k, names, v, modules, hk, hseed, rfl, hdefines⟩ := defines_of_activation htame h
  obtain ⟨-, -, hname⟩ := Source.classOf_eq_ok hk
  have hname := Source.nodeName_eq_ok hname
  obtain ⟨done, line, rest, hlines, hline, hothers⟩ := Source.exists_line_of_classOf hk (nodup_fieldNames_of_build hb) hf
  have hlineName : line.name = f.name := Source.fieldLine_name hline
  have hshape := Source.fieldLine_eq_ok hline
  have hsource : ∀ source, line.value = some (.copied source) → names.get? (privateName k.name source) = some (.cls C) := by
    intro source hsource
    obtain ⟨owner, howner, hcopied, -⟩ | ⟨_, -, -, hliteral, -⟩ | ⟨hnone, -⟩ := hshape
    · cases hcopied.symm.trans hsource
      rw [hname, named _ howner]
      exact get?_seed_of_binding hb hseed hbinding howner
    · cases hliteral.symm.trans hsource
    · cases hdefault.symm.trans hnone
  have passive : line.IsPassive names k.name :=
    ⟨hlineName ▸ spares.undotted f hf, by rw [hlineName, hname, hplain], fun source hcopied => ⟨C, hsource source hcopied⟩⟩
  have hfields : ∀ g ∈ done ++ rest, privateName k.name g.name ≠ line.name := by
    intro g hg heq
    obtain ⟨f', hf', hgname, hne⟩ := hothers g hg
    rw [hgname, hname, hlineName] at heq
    exact hne (alone f' hf' heq)
  have hapart : ∀ c ∈ k.methods, privateName k.name c.name ≠ line.name := by
    intro c hc heq
    obtain ⟨m, hm, -, hplain⟩ := exists_method_of_code hb hk hc
    exact hmethods m hm ((hplain k.name).symm.trans (heq.trans hlineName))
  have hstart : Tame (· ≠ f.name) (w.withModule (inProcess settings b names).start) := ⟨htame.init, htame.hook, htame.sets⟩
  obtain ⟨u, value, hev, gives, hstored⟩ := hdefines.exists_field hlines (M := (inProcess settings b names).start) passive
    hfields hapart hstart (Source.setsIn_of_classOf hk spares.undotted) Array.getElem?_push_size (fun hkept => hkept hlineName)
  have hevolves : Evolves (· ≠ f.name) w u := (World.evolves_withModule w _).trans hev
  rw [hlineName] at hstored
  obtain ⟨owner, -, hcopied, hreads⟩ | ⟨text', htext, hliteral, hcode, hdescriptor, -⟩ | ⟨hnone, -⟩ := hshape
  · refine ⟨u, World.throughClass C slot, hevolves, ?_, Or.inl ⟨rfl, fun hplainly => ?_⟩⟩
    · cases gives with
      | nothing hnone => cases hcopied.symm.trans hnone
      | literal hliteral => cases hcopied.symm.trans hliteral
      | copied hother bound hattribute =>
        cases Option.some.inj ((hsource _ hother).symm.trans bound)
        rw [hlineName, World.classAttribute?, hevolves.slot?_eq closed (fun hkept => hkept rfl) hslot] at hattribute
        cases hattribute
        exact hstored
    · obtain ⟨hdescriptor, -⟩ | ⟨-, -, text', htext, hnot⟩ := hreads
      · cases hplainly.symm.trans hdescriptor
      · cases hdefault.symm.trans htext
        exact hnot
  · cases hdefault.symm.trans htext
    refine ⟨u, World.literalValue text, hevolves, ?_, Or.inr ⟨rfl, hdescriptor, hliteral⟩⟩
    cases gives with
    | nothing hnone => cases hcode.symm.trans hnone
    | literal hother =>
      cases hcode.symm.trans hother
      exact hstored
    | copied hother => cases hcode.symm.trans hother
  · cases hdefault.symm.trans hnone

/-- A class stores under the name of a field the value that the field's own class finds, exactly if the name is not private to
it, no method has the name, and the value is read as it is where the code has a literal. -/
theorem stores_field_iff (hbinding : b.bindings.get? f.origin = some (.cls C)) (hslot : w.slot? C f.name = some slot)
    (hdefault : f.default = some text) (named : ∀ owner ∈ b.aliases.get? f.origin, privateName b.name owner = owner) {v : Value}
    (hv : World.throughClass C slot = v) (hvalue : w.slotOf v = .value v) :
    (w'.cls id).slots.get? f.name = some (.value v) ↔
      privateName b.name f.name = f.name ∧ (∀ m ∈ b.methods, m.name ≠ f.name) ∧ f.Reads text v := by
  by_cases hmethods : ∀ m ∈ b.methods, m.name ≠ f.name
  swap
  · refine iff_of_false (fun hstored => hmethods fun m hm hname => ?_) fun hall => hmethods hall.2.1
    exact not_value_of_method hb h spares hspecial hm hname v hstored
  by_cases hplain : privateName b.name f.name = f.name
  swap
  · refine iff_of_false (fun hstored => ?_) fun hall => hplain hall.1
    cases (not_stored_of_private hb h spares hspecial alone hplain hmethods).symm.trans hstored
  obtain ⟨u, value, hevolves, hstored, hgiven⟩ :=
    exists_given hb h closed hf spares hspecial alone hbinding hslot hdefault named hplain hmethods
  have hkeeps := hevolves.slotOf_eq hvalue
  constructor
  · intro hfound
    obtain rfl := World.eq_of_impliedKind_slotOf (Option.some.inj (hstored.symm.trans hfound))
    refine ⟨hplain, hmethods, fun hplainly hliteral => ?_⟩
    obtain ⟨-, hnot⟩ | ⟨hread, -, -⟩ := hgiven
    · cases (hnot hplainly).symm.trans hliteral
    · exact hread.symm
  · rintro ⟨-, -, hreads⟩
    have hsame : value = v := by
      obtain ⟨hfound, -⟩ | ⟨hread, hdescriptor, hliteral⟩ := hgiven
      · exact hfound.trans hv
      · exact hread.trans (hreads hdescriptor hliteral)
    rw [hstored, hsame, hkeeps]
    rfl

end Field

/-! ## Methods -/

section Method

variable {S : String → Prop} {names : Entries Value} {c : Source.Method} {f g : Nat} {F G : Function} {kind : MemberKind}

/-- The defaults of a generated function are restored from the function that it is for; the receiver has none. -/
theorem defaults_of_generates (hb : (build (Provider.live w) defaults strict q).runFrom { provider := {} } = (.ok b, t'))
    (hm : m ∈ b.methods) (taken : m.TakenFrom w C) (generates : Generates settings S w b m id w' names c g G)
    (furnished : w.IsFurnished) (closed : w.IsClosed) (legal : w.IsLegal) (kept : ¬S m.name)
    (hbinding : b.bindings.get? m.reference = some (.cls C)) (tells : w.Tells C m.name)
    (hslot : w.slot? C m.name = some (.routine kind f)) (hF : w.function? f = some F)
    (reads : m.hasComputedDefaults = true →
      b.bindings.get? SymbolRef.parameterDefault.path = some (.function World.parameterDefaultId) ∧
        ∀ owner ∈ b.aliases.get? m.reference, privateName b.name owner = owner) :
    G.params.map Parameter.default = ((receiverOf kind).toList.map fun _ => none) ++
      (F.shown kind).map fun q => q.default.map w.restored := by
  obtain ⟨rfl, hparams⟩ := signature_of_tells taken tells hslot hF
  have hlegal := isLegal_of_build legal (fun e he => absurd he List.not_mem_nil) hb hm
  obtain ⟨-, -, -, hformals, -⟩ := Source.methodOf_eq_ok generates.code
  obtain ⟨reference, fs, href, hfs, -, heq⟩ := (Source.formalsOf_eq_ok hlegal).1 hformals
  have href := Source.aliasOf_eq_ok.1 href
  have hfs := Outcome.mapM_eq_ok.1 hfs
  rw [hparams] at hfs
  obtain ⟨s, moduleName, -, -, hmet⟩ := generates.made
  have hmet : List.Forall₂ _ (c.formals.map (Source.Formal.within b.name)) G.params := hmet
  rw [heq] at hmet
  have hvariadic : ∀ q ∈ F.shown m.signature.kind, q.kind.isVariadic = true → q.default.isSome = false := by
    intro q hq
    have := hlegal.variadic (w.paramOf q).shape (List.mem_map_of_mem (hparams ▸ List.mem_map_of_mem hq))
    rwa [World.shape_paramOf] at this
  have hrestores : ∀ q ∈ F.shown m.signature.kind, ∀ f' x,
      Source.formalOf b (Source.implementation reference m.signature.kind m.name) (w.paramOf q) = .ok f' →
      (∃ y y' : World, (Evolves S w y ∧ y.modules[s.home]? = some (inProcess settings b names).start) ∧
        (s.parameter (f'.within b.name)).runFrom y = (.ok x, y')) →
      x.default = q.default.map w.restored := by
    rintro q hq f' x hf' ⟨y, y', ⟨hy, hmodule⟩, hrun⟩
    refine World.default_eq_restored (hvariadic q hq) hf' hrun fun v reader x hdefault hliteral hreader hrun => ?_
    obtain ⟨readable, hfind⟩ := World.find?_of_shown legal hF hq (by rw [hdefault]; exact Option.some_ne_none v)
    have hcomputed : m.hasComputedDefaults = true :=
      List.any_eq_true.2 ⟨w.paramOf q, hparams ▸ List.mem_map_of_mem hq, by simp [World.paramOf, hdefault, hliteral]⟩
    obtain ⟨hlibrary, named⟩ := reads hcomputed
    rw [Source.Default.readBack_within (privateName_reader hb hreader b.name) (named _ href) (taken.privateName_eq b.name)] at hrun
    rw [(World.defaultValue_readBack (furnished.evolves hy) hmodule
      (get?_seed_of_binding hb generates.seeded hlibrary hreader) (get?_seed_of_binding hb generates.seeded hbinding href)
      (hy.slot?_eq closed kept hslot) (hy.function? hF) readable hfind hrun).1, hdefault, Option.getD_some]
  unfold Source.withReceiver at hmet
  cases hreceiver : receiverOf m.signature.kind with
  | none =>
    rw [hreceiver] at hmet
    exact World.map_default_eq hfs hmet hrestores
  | some receiver =>
    rw [hreceiver] at hmet
    generalize G.params = params at hmet ⊢
    cases hmet with
    | cons hx hxs =>
      obtain ⟨y, y', -, hrun⟩ := hx
      obtain ⟨-, -, -, ⟨-, hdefault⟩ | ⟨d, v, hd, -⟩⟩ := World.parameter_eq_ok hrun
      · rw [List.map_cons, hdefault, World.map_default_eq hfs hxs hrestores]
        rfl
      · cases hd

/-- So they are the defaults of that function exactly if each is restored as it was. -/
theorem defaults_eq_iff {front : List (Option Value)} {shown : List Parameter} :
    (front ++ shown.map fun q => q.default.map w.restored) = front ++ shown.map Parameter.default ↔
      ∀ q ∈ shown, ∀ v ∈ q.default, w.restored v = v := by
  rw [List.append_cancel_left_eq, List.map_inj_left]
  refine forall₂_congr fun q _ => ?_
  cases q.default with
  | none => simp
  | some v => simp

end Method

namespace Counter

/-- What a rebate is shared by: a list with a text that has a quote. -/
def share : Value := .list [.int 1, .str "it's"]

/-- A rate takes a share that is written as a literal, and a class that is not. -/
def rate : Function :=
  { name := "rate", qualname := "Rebate.rate", home := "shop", body := .nothing
    params := [{ name := "self" }, { name := "share", default := some share }, { name := "on", default := some (.cls 7) }] }

end Counter

/-- A cart, and a rebate that has a share and a rate, and an object that answers for the limit which its base has. -/
def counter : Session where
  world :=
    { World.fresh with
      classes := World.fresh.classes ++
        #[{ name := "Cart", qualname := "Cart", home := "shop", order := [7, World.objectId] },
          { name := "Rebate", qualname := "Rebate", home := "shop", order := [8, 9, World.objectId],
            slots := [("limit", .descriptor), ("share", .value Counter.share), ("rate", .routine .ofInstance 9)] },
          { name := "Discount", qualname := "Discount", home := "shop", order := [9, World.objectId],
            slots := [("limit", .value (.int 3))] }]
      functions := World.fresh.functions.push Counter.rate }
  files := { here := ⟨"/", ["shop"]⟩ }

/-- What a rebate tells of itself: its share and its rate, but not its limit. -/
theorem tells_counter : counter.world.Tells 8 "share" ∧ counter.world.Tells 8 "rate" := by
  have htells : ∀ name ∈ ["share", "rate"], counter.world.teller? 8 name = some 8 → counter.world.Tells 8 name := by
    intro name hname hteller _
    have hsome : ∀ name ∈ ["share", "rate"], (counter.world.declared (counter.world.ownersOf 8) (counter.world.cls 8)
        name).name?.isSome = true := by decide +kernel
    refine ⟨8, by decide +kernel, hteller, fun hnothing => ?_⟩
    have hsome := hsome name hname
    rw [hnothing] at hsome
    cases hsome
  exact ⟨htells _ (by decide) (by decide +kernel), htells _ (by decide) (by decide +kernel)⟩

theorem sound_share : Counter.share.IsSound := ⟨trivial, trivial, trivial⟩

end Session

end Amalgam
