import Amalgam.Proofs.Session.Roundtrip
import Amalgam.Proofs.Source.Accepting
import Amalgam.Proofs.World.Restoring

/-!
# Methods that stand for members of contributors

An activation makes a function of each method (`Session.Generates`), and between its hooks this calls what the contributor has
stored (`World.Calls`). `Session.stands_iff_mirrors` says when it does so with the same arguments: of the two functions' own
parameters, this is for `Source.Mirrors` to tell.
-/

namespace Amalgam

open Source (implementation receiverOf forwardAll StandsFor Emits Mirrors)
open Parameter (through behind)
open World (Tame Evolves)

/-! ## The call between the hooks -/

namespace Source

variable {b : Blueprint} {m : MethodDef} {c : Method}

/-- The call of work that is a single one. -/
def Work.call? : Work → Option Call
  | .call c => some c
  | .combine _ _ => none

/-- The call that a statement does the work of a method by. -/
def Stmt.core? : Stmt → Option Call
  | .keep w => w.call?
  | .give w => w.call?
  | _ => none

theorem core?_advisedBody (general special general' special' : Option Advice.Call) (cls cls' : String) (work : Work) :
    (advisedBody b m general special cls work special' cls' general').findSome? Stmt.core? =
      (work.within b.name).call?.or none := by
  have hwatch : ∀ (general : Option Advice.Call) (args : List Arg), (watchStmts b m general args).findSome? Stmt.core? = none := by
    intro general args
    cases general <;> rfl
  have hleave : ∀ (special : Option Advice.Call) (args : List Arg) (cls : String),
      (decisionStmts b m .leaveOn special args cls).findSome? Stmt.core? = none := by
    intro special args cls
    cases special <;> rfl
  have hreplace : ∀ (special : Option Advice.Call) (args : List Arg) (cls : String),
      (decisionStmts b m .replaceOn special args cls).findSome? Stmt.core? = none := by
    intro special args cls
    cases special <;> rfl
  unfold advisedBody
  simp only [List.findSome?_append, List.findSome?_cons, hwatch, hleave, hreplace, Option.none_or, Stmt.core?]
  cases (work.within b.name).call? <;> rfl

/-- The body of a method whose core is a call calls the contributor between its hooks. -/
theorem core?_of_methodOf (built : m.IsBuilt b) {path : String} (hc : methodOf b m = .ok c) (hcore : m.core = .call ⟨path, m.name⟩) :
    ∃ owner, b.aliases.get? path = some owner ∧ (c.within b.name).body.findSome? Stmt.core? =
      some (Call.within b.name ⟨implementation owner m.signature.kind m.name,
        (receiverOf m.signature.kind).toList.map Arg.name ++ forwardAll m.signature, m.signature.isAsync⟩) := by
  obtain ⟨-, -, -, -, hbody⟩ := methodOf_eq_ok hc
  obtain ⟨general, special, hooks, hbefore⟩ := built.before
  obtain ⟨general', special', hooks', hafter⟩ := built.after
  have hwork : ∀ {work}, workOf b m (receiverOf m.signature.kind) = .ok work → ∃ owner, b.aliases.get? path = some owner ∧
      work = .call ⟨implementation owner m.signature.kind m.name,
        (receiverOf m.signature.kind).toList.map Arg.name ++ forwardAll m.signature, m.signature.isAsync⟩ := by
    intro work hwork
    unfold workOf at hwork
    rw [hcore] at hwork
    obtain ⟨call, hcall, hdone⟩ := Outcome.bind_eq_ok.1 hwork
    cases hdone
    obtain ⟨owner, howner, hdone⟩ := Outcome.bind_eq_ok.1 hcall
    cases hdone
    exact ⟨owner, aliasOf_eq_ok.1 howner, rfl⟩
  show ∃ owner, _ ∧ (c.body.map (Stmt.within b.name)).findSome? Stmt.core? = _
  cases hadvised : m.isAdvised with
  | true =>
    obtain ⟨work, cls, cls', hdone, -, -, heq⟩ := bodyOf_advised hooks hbefore hooks' hafter hadvised hbody
    obtain ⟨owner, howner, rfl⟩ := hwork hdone
    exact ⟨owner, howner, by rw [heq, core?_advisedBody]; rfl⟩
  | false =>
    obtain ⟨work, hdone, heq⟩ := bodyOf_plain hadvised hbody
    obtain ⟨owner, howner, rfl⟩ := hwork hdone
    exact ⟨owner, howner, by rw [heq]; rfl⟩

end Source

/-- Between its hooks a function makes a call, and of a function, unless a local variable takes the place of the class that the
call goes through. -/
def World.Calls (w : World) (G : Function) (call : Source.Call) (f : Nat) : Prop :=
  ∃ body home, G.body = .generated body home ∧ body.findSome? Source.Stmt.core? = some call ∧
    ∀ (names : List String) (locals : Entries Value) (k : Nat), call.target.head ∉ names → locals.get? call.target.head = none →
      (call.target.eval (((Behaviour.levels (k + 1)).surroundings (some home)).hide names) locals).runFrom w =
        (.ok (.function f), w)

/-- A function whose parameters can be learnt shows those behind the one that takes what it is called through. -/
theorem Function.shown_of_readable {F : Function} (readable : F.isReadable = true) (kind : MemberKind) :
    F.shown kind = behind (receiverOf kind) F.params := by
  unfold Function.shown
  rw [readable, Bool.not_true, if_neg Bool.false_ne_true]
  cases hparams : F.params with
  | nil => cases kind <;> rfl
  | cons p ps =>
    by_cases hp : p.isPositional = true
    · cases kind <;> simp [behind, Parameter.taking, receiverOf, hp]
    · cases kind <;> simp [behind, Parameter.taking, receiverOf, hp]

namespace Session

variable {p p₁ p' : Session} {settings settings' : Settings} {binds : Bool} {q : Request} {b : Blueprint} {id ref f g : Nat}
  {w w' : World} {S : String → Prop} {m : MethodDef} {names : Entries Value} {c : Source.Method} {F G : Function} {kind : MemberKind}
  {strict : Bool} {t' : Planning Roster}

/-! ## The function of a method -/

namespace Generates

variable (generates : Generates settings S w b m id w' names c g G)

include generates

theorem slot?_eq : w'.slot? id m.name = some (.routine m.signature.kind g) := by
  obtain ⟨ancestors, horder⟩ := generates.order
  rw [World.slot?, horder, List.findSome?_cons, generates.stored]

/-- The parameters of the function are those of the code, up to defaults. -/
theorem shapes : G.params.map Parameter.shape = (c.within b.name).formals.map Source.Formal.shape := by
  obtain ⟨s, moduleName, -, -, hmet⟩ := generates.made
  generalize (c.within b.name).formals = fs, G.params = xs at hmet ⊢
  induction hmet with
  | nil => rfl
  | @cons f x fs xs hrun _ ih =>
    obtain ⟨y, y', -, hrun⟩ := hrun
    obtain ⟨hname, hkind, -, hdefault⟩ := World.parameter_eq_ok hrun
    have hhas : x.default.isSome = f.default.isSome := by
      rcases hdefault with ⟨hf, hx⟩ | ⟨d, v, hf, hx, -⟩ <;> rw [hf, hx] <;> rfl
    rw [List.map_cons, List.map_cons, ih]
    show ParamShape.mk x.name x.kind x.default.isSome :: _ = ParamShape.mk f.name f.kind f.default.isSome :: _
    rw [hname, hkind, hhas]

/-- Their names differ, since the code can be compiled. -/
theorem distinct : (G.params.map Parameter.name).Nodup := by
  have hnodup : ∀ ts : List String, Source.allDistinct ts = true → ts.Nodup := by
    intro ts h
    induction ts with
    | nil => exact List.nodup_nil
    | cons t ts ih =>
      rw [Source.allDistinct, Bool.and_eq_true, Bool.not_eq_true', List.contains_eq_mem, decide_eq_false_iff_not] at h
      exact List.nodup_cons.2 ⟨h.1, ih h.2⟩
  have hsound := generates.sound
  simp only [Source.Method.isSound, Bool.and_eq_true] at hsound
  have hnames := congrArg (List.map ParamShape.name) generates.shapes
  simp only [List.map_map] at hnames
  have hnames : G.params.map Parameter.name = (c.within b.name).formals.map Source.Formal.name := hnames
  rw [hnames]
  exact hnodup _ hsound.1.2

end Generates

/-- What is planned of a member that a class finds as a function is what the function shows. -/
theorem signature_of_tells (taken : m.TakenFrom w ref) (tells : w.Tells ref m.name)
    (hslot : w.slot? ref m.name = some (.routine kind f)) (hF : w.function? f = some F) :
    m.signature.kind = kind ∧ m.signature.params = (F.shown kind).map w.paramOf := by
  obtain ⟨kind', f', F', hslot', hF', hsignature⟩ | ⟨v, hslot', -⟩ := tells.member taken.declared
  · cases hslot.symm.trans hslot'
    cases hF.symm.trans hF'
    rw [hsignature]
    exact ⟨rfl, World.paramsOf_eq kind F⟩
  · cases hslot.symm.trans hslot'

section Reference

variable {call : Source.Call} {owner : String}

variable (hb : (Blueprint.build (Provider.live w) defaults strict q).runFrom { provider := {} } = (.ok b, t'))
  (hm : m ∈ b.methods) (taken : m.TakenFrom w ref) (hslot : w.slot? ref m.name = some (.routine kind f))
  (generates : Generates settings S w b m id w' names c g G)

include hb hm taken hslot generates

/-- The function of a method is written down for the one of its reference. -/
theorem emits_of_generates (legal : w.IsLegal) (tells : w.Tells ref m.name) (hF : w.function? f = some F) (hcore : m.core = .call ⟨m.reference, m.name⟩)
    (shows : F.shown kind = behind (receiverOf kind) F.params) :
    ∃ call owner, b.aliases.get? m.reference = some owner ∧
      call.target = (implementation owner kind m.name).within b.name ∧
      (c.within b.name).body.findSome? Source.Stmt.core? = some call ∧
      Emits b.name (receiverOf kind) F.params G.params call := by
  obtain ⟨rfl, hparams⟩ := signature_of_tells taken tells hslot hF
  obtain ⟨owner, howner, hcall⟩ := Source.core?_of_methodOf (MethodDef.isBuilt_of_build hb hm) generates.code hcore
  have hshapes : m.signature.params.map Param.shape = (behind (receiverOf m.signature.kind) F.params).map Parameter.shape := by
    rw [hparams, shows, List.map_map]
    exact List.map_congr_left fun q _ => World.shape_paramOf q
  have hlegal := Blueprint.isLegal_of_build legal (fun e he => absurd he List.not_mem_nil) hb hm
  refine ⟨_, owner, howner, rfl, hcall, legal F (Array.mem_of_getElem? hF), fun name hname => World.privateName_receiver hname,
    ?_, generates.distinct, m.signature.params, hshapes, ?_⟩
  · rw [generates.shapes, Source.shapes_of_methodOf generates.code hlegal, hshapes]
  · show (_ ++ forwardAll m.signature).map _ = _
    have hreceiver : ((receiverOf m.signature.kind).toList.map Source.Arg.name).map (Source.Arg.within b.name) =
        (receiverOf m.signature.kind).toList.map Source.Arg.name := by
      cases hr : receiverOf m.signature.kind with
      | none => rfl
      | some name =>
        show [Source.Arg.name (Text.privateName b.name name)] = [Source.Arg.name name]
        rw [World.privateName_receiver hr]
    rw [List.map_append, hreceiver, forwardAll, List.map_map]
    rfl

/-- Between its hooks it calls that function, if the name of the reference stays what it is. -/
theorem calls_of_generates (closed : w.IsClosed) (kept : ¬S m.name) (hbinding : b.bindings.get? m.reference = some (.cls ref))
    (howner : b.aliases.get? m.reference = some owner)
    (stable : Text.IsStable b.name owner) (htarget : call.target = (implementation owner kind m.name).within b.name)
    (hcall : (c.within b.name).body.findSome? Source.Stmt.core? = some call) : w'.Calls G call f := by
  obtain ⟨M, hM, hnames⟩ := generates.bound
  obtain ⟨s, moduleName, ⟨hscope, hhome⟩, hG, -⟩ := generates.made
  rw [Source.implementation_within stable.1 (taken.privateName_eq b.name)] at htarget
  have hglobal : M.names.get? owner = some (.cls ref) := by
    rw [hnames, Entries.get?_put_of_ne _ _ ((MethodDef.isBuilt_of_build hb hm).fresh howner).2]
    exact get?_seed_of_binding hb generates.seeded hbinding howner
  have hfound := generates.evolves.slot?_eq closed kept hslot
  refine ⟨(c.within b.name).body, w.modules.size, ?_, hcall, fun names locals k hnames hlocal => ?_⟩
  · rw [hG, ← hscope, ← hhome]
    rfl
  · rw [htarget] at hnames hlocal ⊢
    exact World.runFrom_eval_implementation hM hglobal stable.2 hfound rfl k hlocal hnames

end Reference

/--
Every composite of live classes that is activated, and every method of it whose core is a plain call of its reference: the
composite has a function for it that calls the contributor's between its hooks, and accepts the same calls, handing on what
comes to the same binding, exactly if it mirrors the contributor's. Both are called through the same, the contributor's
function shows its own parameters, and no code sets the name of the method on a class.
-/
theorem stands_iff_mirrors (hplan : (plan .live settings q).runFrom p = (.ok b, p₁))
    (hactivate : (activate settings' binds b).runFrom p₁ = (.ok id, p')) (closed : p.world.IsClosed) (legal : p.world.IsLegal)
    (hm : m ∈ b.methods) (hcore : m.core = .call ⟨m.reference, m.name⟩)
    (hbinding : b.bindings.get? m.reference = some (.cls ref)) (tells : p.world.Tells ref m.name)
    (hslot : p.world.slot? ref m.name = some (.routine kind f)) (hF : p.world.function? f = some F)
    (shows : F.shown kind = behind (receiverOf kind) F.params) (tame : Tame (· ≠ m.name) p.world)
    (undotted : ∀ f ∈ b.fields, '.' ∉ f.name.toList) (marks : kind ≠ .ofInstance → b.lines.Pairwise Source.Line.Leaves) :
    ∃ g G call, p'.world.slot? id m.name = some (.routine kind g) ∧ p'.world.function? g = some G ∧
      ((∀ owner ∈ b.aliases.get? m.reference, Text.IsStable b.name owner) → p'.world.Calls G call f) ∧
      ((∀ x args keywords, keywords.keys.Nodup →
          StandsFor F.params G.params call (through (receiverOf kind) x ++ args) keywords) ↔
        Mirrors b.name (receiverOf kind) F.params G.params) := by
  obtain ⟨hworld, t', hb⟩ := build_of_plan hplan
  have hrun := activation_of_activate hactivate
  rw [hworld] at hrun
  obtain ⟨ref', taken, hbinding', -⟩ := takenFrom_of_build hb hm
  cases hbinding.symm.trans hbinding'
  obtain ⟨hkind, -⟩ := signature_of_tells taken tells hslot hF
  obtain ⟨names, c, g, G, generates⟩ :=
    exists_generates hb hrun hm tame (fun hkept => hkept rfl) undotted fun h => marks (hkind ▸ h)
  obtain ⟨call, owner, howner, htarget, hcall, emits⟩ :=
    emits_of_generates hb hm taken hslot generates legal tells hF hcore shows
  refine ⟨g, G, call, hkind ▸ generates.slot?_eq, generates.function, fun stable => ?_, emits.standsFor_iff⟩
  exact calls_of_generates hb hm taken hslot generates closed (fun hkept => hkept rfl) hbinding howner (stable owner howner)
    htarget hcall

namespace Till

/-- A payment takes any options, through a receiver of another name than usual. -/
def pay : Function :=
  { name := "pay", qualname := "Rebate.pay", home := "shop",
    params := [{ name := "this" }, { name := "options", kind := .varKeyword }], body := .nothing }

def rate : Function :=
  { name := "rate", qualname := "Rebate.rate", home := "shop", params := [{ name := "self" }, { name := "on" }], body := .nothing }

end Till

/-- A cart, and a rebate with payments and a rate. -/
def till : Session where
  world :=
    { World.fresh with
      classes := World.fresh.classes ++
        #[{ name := "Cart", qualname := "Cart", home := "shop", order := [7, World.objectId] },
          { name := "Rebate", qualname := "Rebate", home := "shop", order := [8, World.objectId],
            slots := [("pay", .routine .ofInstance 9), ("rate", .routine .ofInstance 10)] }]
      functions := World.fresh.functions ++ #[Till.pay, Till.rate] }
  files := { here := ⟨"/", ["shop"]⟩ }

theorem tells_rebate : till.world.Tells 8 "pay" ∧ till.world.Tells 8 "rate" := by
  have hmember : ∀ name ∈ ["pay", "rate"], (till.world.declared (till.world.ownersOf 8) (till.world.cls 8) name).member?.isSome =
      true := by decide +kernel
  have htells : ∀ name ∈ ["pay", "rate"], till.world.teller? 8 name = some 8 → till.world.Tells 8 name := by
    intro name hname hteller _
    refine ⟨8, by decide +kernel, hteller, fun hnothing => ?_⟩
    have hsome := hmember name hname
    rw [hnothing] at hsome
    cases hsome
  exact ⟨htells _ (by decide) (by decide +kernel), htells _ (by decide) (by decide +kernel)⟩

/-- The rate of the composite stands for that of the rebate, but its payments refuse an option with the name of the receiver. -/
theorem stands_iff_mirrors_till : ∃ b p₁ id p', (plan .live {} bargain).runFrom till = (.ok b, p₁) ∧
    (activate {} false b).runFrom p₁ = (.ok id, p') ∧ ∀ e ∈ [("pay", 9, Till.pay), ("rate", 10, Till.rate)], ∃ g G call,
      p'.world.slot? id e.1 = some (.routine .ofInstance g) ∧ p'.world.function? g = some G ∧
      p'.world.Calls G call e.2.1 ∧
      ((∀ x args keywords, keywords.keys.Nodup → StandsFor e.2.2.params G.params call (x :: args) keywords) ↔
        e.1 = "rate") := by
  have hmix : ((mix .live {} false bargain).runFrom till).1.toOption.isSome = true := by decide +kernel
  have hfacts : (((plan .live {} bargain).runFrom till).1.toOption.map fun b =>
      (b.name, b.fields.all (fun f => !f.name.toList.contains '.'), b.aliases.get? "shop:Rebate",
        b.bindings.get? "shop:Rebate")) = some ("Sale", true, some "Rebate", some (.cls 8)) := by decide +kernel
  have hmethods : (((plan .live {} bargain).runFrom till).1.toOption.map fun b => b.methods.map fun m =>
      (m.name, m.reference, m.core)) = some [("pay", "shop:Rebate", .call ⟨"shop:Rebate", "pay"⟩),
        ("rate", "shop:Rebate", .call ⟨"shop:Rebate", "rate"⟩)] := by
    decide +kernel
  have hrate : (((mix .live {} false bargain).runFrom till).1.toOption.bind fun id =>
      let w := ((mix .live {} false bargain).runFrom till).2.world
      ((((w.slot? id "rate").bind Slot.callee?).bind fun c => c.2.function?).bind w.function?).map fun G =>
        G.params.map fun p => (p.name, p.kind, p.default.isNone)) =
      some [("self", .positionalOrKeyword, true), ("on", .positionalOrKeyword, true)] := by decide +kernel
  have hsets : ∀ f ∈ till.world.functions.toList, f.sets = [] := by decide +kernel
  rw [runFrom_mix] at hmix hrate
  generalize hplan : (plan .live {} bargain).runFrom till = r at hmix hfacts hmethods hrate
  obtain ⟨outcome, p₁⟩ := r
  cases outcome with
  | error e => cases hfacts
  | ok b =>
    dsimp only at hmix hrate
    generalize hactivate : (activate {} false b).runFrom p₁ = r at hmix hrate
    obtain ⟨outcome, p'⟩ := r
    obtain ⟨id, rfl⟩ := Outcome.exists_eq_ok_of_isSome hmix
    have hfacts := Option.some.inj hfacts
    simp only [Prod.mk.injEq] at hfacts
    obtain ⟨hname, hfields, halias, hbinding⟩ := hfacts
    have undotted : ∀ f ∈ b.fields, '.' ∉ f.name.toList := fun f hf => by simpa using List.all_eq_true.1 hfields f hf
    obtain ⟨htellsPay, htellsRate⟩ := tells_rebate
    -- What the theorem says of a method of the rebate.
    have hstands : ∀ name f F, (name, "shop:Rebate", .call ⟨"shop:Rebate", name⟩) ∈ b.methods.map (fun m =>
          (m.name, m.reference, m.core)) → till.world.Tells 8 name →
        till.world.slot? 8 name = some (.routine .ofInstance f) → till.world.function? f = some F → F.isReadable = true →
        name ≠ "__init__" ∧ name ≠ "__subclasshook__" → ∃ g G call, p'.world.slot? id name = some (.routine .ofInstance g) ∧
          p'.world.function? g = some G ∧ p'.world.Calls G call f ∧
          ((∀ x args keywords, keywords.keys.Nodup → StandsFor F.params G.params call (x :: args) keywords) ↔
            Mirrors "Sale" (some "self") F.params G.params) := by
      rintro name f F hmem tells hslot hF readable ⟨hinit, hhook⟩
      obtain ⟨m, hm, heq⟩ := List.mem_map.1 hmem
      simp only [Prod.mk.injEq] at heq
      obtain ⟨rfl, hreference, hcore⟩ := heq
      rw [← hreference] at hcore hbinding halias
      obtain ⟨g, G, call, hfound, hG, hcalls, hiff⟩ := stands_iff_mirrors hplan hactivate (by decide +kernel)
        (by decide +kernel) hm hcore hbinding tells hslot hF (Function.shown_of_readable readable _)
        ⟨hinit.symm, hhook.symm, fun f hf other hset => by rw [hsets f (Array.mem_toList_iff.2 hf)] at hset; cases hset⟩
        undotted (fun hkind => absurd rfl hkind)
      rw [hname] at hcalls hiff
      refine ⟨g, G, call, hfound, hG, hcalls fun owner howner => ?_, hiff⟩
      rw [halias] at howner
      cases howner
      decide +kernel
    have hmethods : b.methods.map (fun m => (m.name, m.reference, m.core)) = _ := Option.some.inj hmethods
    refine ⟨b, p₁, id, p', rfl, hactivate, List.forall_mem_cons.2 ⟨?_, List.forall_mem_singleton.2 ?_⟩⟩
    · obtain ⟨g, G, call, hfound, hG, hcalls, hiff⟩ := hstands "pay" 9 Till.pay (by rw [hmethods]; decide) htellsPay rfl rfl rfl
        (by decide)
      refine ⟨g, G, call, hfound, hG, hcalls, hiff.trans (iff_of_false (fun mirrors => ?_) (by decide))⟩
      rcases mirrors.keywords "self" rfl ⟨_, List.mem_singleton_self _, rfl⟩ with ⟨p, hp, hkind⟩ | ⟨p, hp, -, hother⟩
      · cases List.mem_singleton.1 hp
        cases hkind
      · cases Option.some.inj hp
        exact absurd hother (by decide)
    · obtain ⟨g, G, call, hfound, hG, hcalls, hiff⟩ := hstands "rate" 10 Till.rate (by rw [hmethods]; decide) htellsRate rfl rfl
        rfl (by decide)
      refine ⟨g, G, call, hfound, hG, hcalls, hiff.trans (iff_of_true ⟨?_, ?_, ?_, ?_⟩ rfl)⟩
      · intro p hp _
        cases List.mem_singleton.1 hp
        decide +kernel
      · exact Parameter.opens_of_taking rfl
      · rintro _ - ⟨p, hp, hkind⟩
        cases List.mem_singleton.1 hp
        cases hkind
      · have hrate : ((((p'.world.slot? id "rate").bind Slot.callee?).bind fun c => c.2.function?).bind p'.world.function?).map _ =
          _ := hrate
        rw [hfound] at hrate
        have hrate : (p'.world.function? g).map _ = _ := hrate
        rw [hG] at hrate
        obtain ⟨x, xs, hparams, hx, hxs⟩ := List.map_eq_cons_iff.1 (Option.some.inj hrate)
        obtain ⟨y, ys, rfl, hy, hys⟩ := List.map_eq_cons_iff.1 hxs
        obtain rfl := List.map_eq_nil_iff.1 hys
        simp only [Prod.mk.injEq, Option.isNone_iff_eq_none] at hx hy
        rw [hparams, List.map_cons, List.map_cons, hx.2.2, hy.2.2]
        rfl

end Session

end Amalgam
