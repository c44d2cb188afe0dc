import Amalgam.Proofs.Session.Steps
import Amalgam.Proofs.Source.Prelude
import Amalgam.Proofs.World.Loading

/-!
# Recovering from artifacts that cannot be had

Where a composite can be mixed, a request by way of an artifact is answered as well, whatever the file is like: an artifact
that cannot be written, read or run is given up with a warning, and the composite defined without it. There are two ways in
which the request still fails (`Session.activateFromCache_returns_iff`). A symbol whose import cannot be read breaks the
attempt off (`Source.HasUnreadableImport`), and code of the file that fails late may leave a world in which the composite
can no longer be made (`Session.Spoils`).
-/

namespace Amalgam.Session

open World (Disturbs execute)

variable {origin : Origin} {settings : Settings} {binds : Bool} {a : ArtifactRequest} {b : Blueprint} {p : Session}

/-! ## Outcomes -/

theorem outcome_activate (settings : Settings) (binds : Bool) (b : Blueprint) (p : Session) :
    ((activate settings binds b).runFrom p).1 =
      if p.composites.has b.name then .error (.duplicateType b.name) else (activation settings b p.world).1 := by
  cases htaken : p.composites.has b.name with
  | true =>
    rw [runFrom_activate_taken settings binds b p htaken]
    rfl
  | false =>
    rw [runFrom_activate settings binds b p htaken]
    generalize activation settings b p.world = r
    obtain ⟨r, w⟩ := r
    cases r <;> rfl

theorem outcome_mix (origin : Origin) (settings : Settings) (binds : Bool) (q : Request) (p : Session) :
    ((mix origin settings binds q).runFrom p).1 = match (planned origin settings q p.world).1 with
      | .ok b => if p.composites.has b.name then .error (.duplicateType b.name) else (activation settings b p.world).1
      | .error e => .error e := by
  rw [runFrom_mix, runFrom_plan]
  cases (planned origin settings q p.world).1 with
  | error e => rfl
  | ok b =>
    dsimp only
    rw [outcome_activate]

/-- A blueprint that is planned is built, under the name that is asked for. -/
theorem isBuilt_of_planned {q : Request} {w : World} (h : (planned origin settings q w).1 = .ok b) :
    b.IsBuilt ∧ b.name = q.name := by
  cases origin with
  | live =>
    have hrun : (Blueprint.build (Provider.live w) defaults settings.isStrict q).runFrom { provider := {} } = (.ok b, _) :=
      Prod.ext h rfl
    exact ⟨⟨_, _, _, _, _, _, _, hrun⟩, Blueprint.name_of_build hrun⟩
  | manifests ms =>
    have hrun : (Blueprint.build (Provider.ofManifests ms) defaults settings.isStrict q).runFrom { provider := () } =
        (.ok b, _) := Prod.ext h rfl
    exact ⟨⟨_, _, _, _, _, _, _, hrun⟩, Blueprint.name_of_build hrun⟩

/-- What it takes for a mix to succeed. -/
theorem mix_returns_iff {q : Request} : (∃ id, ((mix origin settings binds q).runFrom p).1 = .ok id) ↔
    ∃ b id, (planned origin settings q p.world).1 = .ok b ∧ p.composites.has q.name = false ∧
      (activation settings b p.world).1 = .ok id := by
  rw [outcome_mix]
  cases hplanned : (planned origin settings q p.world).1 with
  | error e =>
    constructor
    · rintro ⟨_, h⟩
      cases h
    · rintro ⟨_, _, h, -⟩
      cases h
  | ok b =>
    dsimp only
    rw [(isBuilt_of_planned hplanned).2]
    cases p.composites.has q.name with
    | true =>
      constructor
      · rintro ⟨_, h⟩
        cases h
      · rintro ⟨_, _, -, h, -⟩
        cases h
    | false =>
      constructor
      · rintro ⟨id, h⟩
        exact ⟨b, id, rfl, rfl, h⟩
      · rintro ⟨b', id, hb, -, h⟩
        cases hb
        exact ⟨id, h⟩

theorem classOf_of_activation {w : World} {id : Nat} (h : (activation settings b w).1 = .ok id) :
    ∃ cls, Source.classOf b = .ok cls := by
  unfold activation at h
  cases hcode : Source.compile false b with
  | error e =>
    rw [hcode] at h
    cases h
  | ok code => exact ⟨code.cls, Source.classOf_of_compile hcode⟩

/-! ## Files that cannot be loaded -/

/-- The code of a file fails late, and leaves a world in which something cannot be had. -/
def Ruins (settings : Settings) (path : Path) (name : String) (fs : Files) (w : World) (Attainable : World → Prop) : Prop :=
  ∃ code e w', fs.file? path = some (.code code) ∧ (execute (fromFile settings path name) code).runFrom w = (.error e, w') ∧
    Disturbs (fromFile settings path name) code w ∧ ¬Attainable w'

/-- A file that cannot be loaded leaves the world as it was, unless it holds code that fails late. -/
theorem loading_eq_error {path : Path} {name : String} {fs : Files} {w w' : World} {e : Failure}
    (h : loading settings path name fs w = (.error e, w')) : w' = w ∨ ∃ code, fs.file? path = some (.code code) ∧
      (execute (fromFile settings path name) code).runFrom w = (.error e, w') ∧
        Disturbs (fromFile settings path name) code w := by
  unfold loading at h
  split at h
  · rename_i code hfile
    by_cases hlate : Disturbs (fromFile settings path name) code w
    · exact Or.inr ⟨code, hfile, h, hlate⟩
    · exact Or.inl (World.world_of_not_disturbs h hlate)
  all_goals
    cases h
    exact Or.inl rfl

/-- What can be had in a world can be had where a file is not loaded, unless that ruins it. -/
theorem attainable_iff {path : Path} {name : String} {fs : Files} {w : World} {Attainable : World → Prop}
    (h : Attainable w) : (∀ e w', loading settings path name fs w = (.error e, w') → Attainable w') ↔
      ¬Ruins settings path name fs w Attainable := by
  constructor
  · rintro hall ⟨code, e, w', hfile, hfails, -, hlost⟩
    refine hlost (hall e w' ?_)
    rw [loading, hfile]
    exact hfails
  · intro hkept e w' hload
    rcases loading_eq_error hload with rfl | ⟨code, hfile, hfails, hlate⟩
    · exact h
    · by_contra hlost
      exact hkept ⟨code, e, w', hfile, hfails, hlate, hlost⟩

/-- Writing fails for a local symbol, or for the file; or else it breaks off at an import that cannot be read. -/
theorem written_eq_error (built : b.IsBuilt) {cls : Source.Class} (hcls : Source.classOf b = .ok cls) {path : Path}
    {fs : Files} {e : Failure} (h : written b path fs = .error e) :
    isWriteFailure e = true ∧ ¬Source.HasUnreadableImport b ∨
      isWriteFailure e = false ∧ Source.HasUnreadableImport b := by
  unfold written at h
  cases hcode : Source.compile true b with
  | error e' =>
    rw [hcode] at h
    cases h
    rcases Source.compile_eq_error built hcls hcode with ⟨path, rfl⟩ | ⟨rfl, hunreadable⟩
    · refine Or.inl ⟨rfl, fun hunreadable => ?_⟩
      rw [Source.compile_of_hasUnreadableImport hcls hunreadable] at hcode
      cases hcode
    · exact Or.inr ⟨rfl, hunreadable⟩
  | ok code =>
    rw [hcode] at h
    have h : (fs.write path (.code code)).mapError (fun _ => Failure.fault .file) = .error e := h
    cases hwrite : fs.write path (.code code) with
    | error cause =>
      rw [hwrite] at h
      cases h
      refine Or.inl ⟨rfl, fun hunreadable => ?_⟩
      rw [Source.compile_of_hasUnreadableImport hcls hunreadable] at hcode
      cases hcode
    | ok files =>
      rw [hwrite] at h
      cases h

theorem not_hasUnreadableImport_of_written {cls : Source.Class} (hcls : Source.classOf b = .ok cls) {path : Path}
    {fs files : Files} (h : written b path fs = .ok files) : ¬Source.HasUnreadableImport b := by
  intro hunreadable
  rw [written, Source.compile_of_hasUnreadableImport hcls hunreadable] at h
  cases h

/-! ## Requests that are answered -/

/-- An artifact that is loaded, found or new, and spoils the session: the composite can no longer be made without it. -/
def Spoils (origin : Origin) (settings : Settings) (binds : Bool) (a : ArtifactRequest) (p : Session) : Prop :=
  p.reuses settings a = true ∧ (Ruins settings (p.artifact settings a) a.request.name p.files p.world fun w =>
      ∃ id, ((mix origin settings binds a.request).runFrom { p with world := w }).1 = .ok id) ∨
    p.reuses settings a = false ∧ ∃ b files, (planned origin settings a.request p.world).1 = .ok b ∧
      written b (p.artifact settings a) p.files = .ok files ∧
        Ruins settings (p.artifact settings a) a.request.name files p.world fun w =>
          ∃ id, ((activate settings binds b).runFrom { p with world := w }).1 = .ok id

/-- An artifact is to be made anew, and a symbol has an import that cannot be read. -/
def BreaksOff (origin : Origin) (settings : Settings) (a : ArtifactRequest) (p : Session) : Prop :=
  p.reuses settings a = false ∧
    ∃ b, (planned origin settings a.request p.world).1 = .ok b ∧ Source.HasUnreadableImport b

theorem reuse_returns_iff (free : p.composites.has a.request.name = false) (reused : p.reuses settings a = true)
    (hmix : ∃ id, ((mix origin settings binds a.request).runFrom p).1 = .ok id) :
    (∃ id, ((activateFromCache origin settings binds a).runFrom p).1 = .ok id) ↔ ¬Spoils origin settings binds a p := by
  have hspoils : Spoils origin settings binds a p ↔
      Ruins settings (p.artifact settings a) a.request.name p.files p.world fun w =>
        ∃ id, ((mix origin settings binds a.request).runFrom { p with world := w }).1 = .ok id := by
    simp only [Spoils, reused, true_and, Bool.true_eq_false, false_and, or_false]
  rw [hspoils, ← attainable_iff (by exact hmix), runFrom_activateFromCache_reuse origin settings binds p a free reused]
  generalize loading settings (p.artifact settings a) a.request.name p.files p.world = r
  obtain ⟨r, w⟩ := r
  cases r with
  | ok id => exact iff_of_true ⟨id, rfl⟩ fun e w' h => by cases h
  | error e =>
    dsimp only
    rw [outcome_mix]
    constructor
    · intro hreturns e' w' h
      cases h
      rwa [outcome_mix]
    · intro hall
      have := hall e w rfl
      rwa [outcome_mix] at this

theorem renew_returns_iff (renewed : p.reuses settings a = false) {id : Nat}
    (hplanned : (planned origin settings a.request p.world).1 = .ok b) (free : p.composites.has a.request.name = false)
    (hactivation : (activation settings b p.world).1 = .ok id) :
    (∃ id, ((activateFromCache origin settings binds a).runFrom p).1 = .ok id) ↔
      ¬BreaksOff origin settings a p ∧ ¬Spoils origin settings binds a p := by
  obtain ⟨built, hname⟩ := isBuilt_of_planned hplanned
  obtain ⟨cls, hcls⟩ := classOf_of_activation hactivation
  have hbreaks : BreaksOff origin settings a p ↔ Source.HasUnreadableImport b := by
    simp only [BreaksOff, renewed, true_and, hplanned, Except.ok.injEq, exists_eq_left']
  have hspoils : Spoils origin settings binds a p ↔ ∃ files, written b (p.artifact settings a) p.files = .ok files ∧
      Ruins settings (p.artifact settings a) a.request.name files p.world fun w =>
        ∃ id, ((activate settings binds b).runFrom { p with world := w }).1 = .ok id := by
    constructor
    · rintro (⟨hreused, -⟩ | ⟨-, b', files, hb', hwritten, hruins⟩)
      · rw [renewed] at hreused
        cases hreused
      · rw [hplanned] at hb'
        cases hb'
        exact ⟨files, hwritten, hruins⟩
    · rintro ⟨files, hwritten, hruins⟩
      exact Or.inr ⟨renewed, b, files, hplanned, hwritten, hruins⟩
  have hagain : ∃ id, ((activate settings binds b).runFrom p).1 = .ok id := by
    refine ⟨id, ?_⟩
    rw [outcome_activate, hname, free]
    exact hactivation
  rw [hbreaks, hspoils, runFrom_activateFromCache_renew origin settings binds p a free renewed, runFrom_plan, hplanned]
  dsimp only
  rw [runFrom_renew]
  dsimp only
  cases hwritten : written b (p.artifact settings a) p.files with
  | error e =>
    dsimp only
    rcases written_eq_error built hcls hwritten with ⟨hrecovered, hreadable⟩ | ⟨hfatal, hunreadable⟩
    · rw [if_pos hrecovered]
      dsimp only
      refine iff_of_true ?_ ⟨hreadable, ?_⟩
      · rw [outcome_activate] at hagain ⊢
        exact hagain
      · rintro ⟨files, h, -⟩
        cases h
    · rw [if_neg (by rw [hfatal]; decide)]
      refine iff_of_false ?_ fun h => h.1 hunreadable
      rintro ⟨_, h⟩
      cases h
  | ok files =>
    have hreadable := not_hasUnreadableImport_of_written hcls hwritten
    have hruins := @attainable_iff settings (p.artifact settings a) a.request.name files p.world
      (fun w => ∃ id, ((activate settings binds b).runFrom { p with world := w }).1 = .ok id) hagain
    simp only [hreadable, not_false_eq_true, true_and, Except.ok.injEq, exists_eq_left']
    rw [← hruins]
    generalize loading settings (p.artifact settings a) a.request.name files p.world = r
    obtain ⟨r, w⟩ := r
    cases r with
    | ok id => exact iff_of_true ⟨id, rfl⟩ fun e w' h => by cases h
    | error e =>
      dsimp only
      rw [outcome_activate]
      constructor
      · intro hreturns e' w' h
        cases h
        rwa [outcome_activate]
      · intro hall
        have := hall e w rfl
        rwa [outcome_activate] at this

/-! ## Answers -/

/-- How a request by way of an artifact comes to a class: from the artifact, found or new, or else after a warning. -/
inductive Answers (origin : Origin) (settings : Settings) (binds : Bool) (a : ArtifactRequest) (p : Session) (id : Nat)
    (p' : Session) : Prop where
  | found {w : World} {notices : List Notice} (reused : p.reuses settings a = true)
    (load : loading settings (p.artifact settings a) a.request.name p.files p.world = (.ok id, w))
    (result : p' = registered { p with world := w, notices } id binds)
  | mixed {e : Failure} {w : World} (reused : p.reuses settings a = true)
    (load : loading settings (p.artifact settings a) a.request.name p.files p.world = (.error e, w))
    (run : (mix origin settings binds a.request).runFrom
      { p with world := w, notices := p.notices ++ [.setback .unloadable (p.artifact settings a).text e] } = (.ok id, p'))
  | made {b : Blueprint} {files : Files} {w : World} {notices : List Notice} (renewed : p.reuses settings a = false)
    (plan : (planned origin settings a.request p.world).1 = .ok b)
    (write : written b (p.artifact settings a) p.files = .ok files)
    (load : loading settings (p.artifact settings a) a.request.name files p.world = (.ok id, w))
    (result : p' = registered { p with files, world := w, notices } id binds)
  | activated {b : Blueprint} {s : Session} (what : Setback) (e : Failure) (renewed : p.reuses settings a = false)
    (plan : (planned origin settings a.request p.world).1 = .ok b) (world : p.world.Outlives s.world)
    (composites : s.composites = p.composites) (warned : Notice.setback what (p.artifact settings a).text e ∈ s.notices)
    (run : (activate settings binds b).runFrom s = (.ok id, p'))

theorem answers_reuse {id : Nat} {p' : Session} (free : p.composites.has a.request.name = false)
    (reused : p.reuses settings a = true) (h : (activateFromCache origin settings binds a).runFrom p = (.ok id, p')) :
    Answers origin settings binds a p id p' := by
  rw [runFrom_activateFromCache_reuse origin settings binds p a free reused] at h
  cases hload : loading settings (p.artifact settings a) a.request.name p.files p.world with
  | mk r w =>
    rw [hload] at h
    cases r with
    | ok loaded =>
      cases h
      exact .found reused hload rfl
    | error e => exact .mixed reused hload h

theorem answers_renew {id : Nat} {p' : Session} (free : p.composites.has a.request.name = false)
    (renewed : p.reuses settings a = false) (h : (activateFromCache origin settings binds a).runFrom p = (.ok id, p')) :
    Answers origin settings binds a p id p' := by
  rw [runFrom_activateFromCache_renew origin settings binds p a free renewed, runFrom_plan] at h
  cases hplanned : (planned origin settings a.request p.world).1 with
  | error e =>
    rw [hplanned] at h
    cases h
  | ok b =>
    rw [hplanned] at h
    dsimp only at h
    rw [runFrom_renew] at h
    dsimp only at h
    cases hwritten : written b (p.artifact settings a) p.files with
    | error e =>
      rw [hwritten] at h
      dsimp only at h
      cases hrecovered : isWriteFailure e with
      | true =>
        rw [hrecovered] at h
        refine .activated .unwritten e renewed hplanned ?_ ?_ ?_ h
        · exact World.Outlives.refl _
        · rfl
        · exact List.mem_append_right _ List.mem_cons_self
      | false =>
        rw [hrecovered] at h
        cases h
    | ok files =>
      rw [hwritten] at h
      dsimp only at h
      have hworld := outlives_loading settings (p.artifact settings a) a.request.name files p.world
      cases hload : loading settings (p.artifact settings a) a.request.name files p.world with
      | mk r w =>
        rw [hload] at h hworld
        cases r with
        | ok loaded =>
          cases h
          exact .made renewed hplanned hwritten hload rfl
        | error e =>
          refine .activated .unusable e renewed hplanned ?_ ?_ ?_ h
          · exact hworld
          · rfl
          · exact List.mem_append_right _ List.mem_cons_self

/-- A request that is answered asks for a name that is free, and is answered in one of four ways. -/
theorem activateFromCache_eq_ok {id : Nat} {p' : Session}
    (h : (activateFromCache origin settings binds a).runFrom p = (.ok id, p')) :
    p.composites.has a.request.name = false ∧ Answers origin settings binds a p id p' := by
  cases htaken : p.composites.has a.request.name with
  | true =>
    rw [runFrom_activateFromCache_taken origin settings binds p a htaken] at h
    cases h
  | false =>
    refine ⟨rfl, ?_⟩
    cases hreuses : p.reuses settings a with
    | true => exact answers_reuse htaken hreuses h
    | false => exact answers_renew htaken hreuses h

/-- A class that is mixed is activated, with all notices left before. -/
theorem activated_of_mix {q : Request} {id : Nat} {p' : Session}
    (h : (mix origin settings binds q).runFrom p = (.ok id, p')) :
    ∃ b s, (activate settings binds b).runFrom s = (.ok id, p') ∧ b.name = q.name ∧ ∀ n ∈ p.notices, n ∈ s.notices := by
  rw [runFrom_mix, runFrom_plan] at h
  cases hplanned : (planned origin settings q p.world).1 with
  | error e =>
    rw [hplanned] at h
    cases h
  | ok b =>
    rw [hplanned] at h
    exact ⟨b, _, h, (isBuilt_of_planned hplanned).2, fun n hn => List.mem_append_left _ hn⟩

/-- The artifact of a request is loaded, or else a class activated after a warning. -/
def LoadsOrWarns (settings : Settings) (binds : Bool) (a : ArtifactRequest) (p : Session) (id : Nat) (p' : Session) : Prop :=
  (∃ files, loading settings (p.artifact settings a) a.request.name files p.world = (.ok id, p'.world)) ∨
    ∃ b s what cause, (activate settings binds b).runFrom s = (.ok id, p') ∧ b.name = a.request.name ∧
      Notice.setback what (p.artifact settings a).text cause ∈ s.notices

theorem loadsOrWarns {id : Nat} {p' : Session} (h : (activateFromCache origin settings binds a).runFrom p = (.ok id, p')) :
    LoadsOrWarns settings binds a p id p' := by
  cases (activateFromCache_eq_ok h).2 with
  | found reused load result =>
    rw [result]
    exact Or.inl ⟨_, load⟩
  | mixed reused load run =>
    obtain ⟨b, s, hactivate, hname, hnotices⟩ := activated_of_mix run
    exact Or.inr ⟨b, s, _, _, hactivate, hname, hnotices _ (List.mem_append_right _ List.mem_cons_self)⟩
  | made renewed plan write load result =>
    rw [result]
    exact Or.inl ⟨_, load⟩
  | activated what e renewed plan world composites warned run =>
    exact Or.inr ⟨_, _, what, e, run, (isBuilt_of_planned plan).2, warned⟩

/--
Every request by way of an artifact that can be mixed as it is: it is answered, unless the attempt to make the artifact
breaks off at an import that cannot be read, or the artifact spoils the session. The answer is the class of the artifact,
or else a class activated after a warning.
-/
theorem activateFromCache_returns_iff (hmix : ∃ id, ((mix origin settings binds a.request).runFrom p).1 = .ok id) :
    ((∃ id, ((activateFromCache origin settings binds a).runFrom p).1 = .ok id) ↔
        ¬BreaksOff origin settings a p ∧ ¬Spoils origin settings binds a p) ∧
      (BreaksOff origin settings a p →
        ((activateFromCache origin settings binds a).runFrom p).1 = .error (.fault .badStatement)) ∧
      ∀ id p', (activateFromCache origin settings binds a).runFrom p = (.ok id, p') →
        LoadsOrWarns settings binds a p id p' := by
  obtain ⟨b, id, hplanned, free, hactivation⟩ := mix_returns_iff.1 hmix
  refine ⟨?_, ?_, fun id p' h => loadsOrWarns h⟩
  · cases hreuses : p.reuses settings a with
    | true =>
      rw [reuse_returns_iff free hreuses hmix]
      refine (and_iff_right ?_).symm
      rintro ⟨hrenewed, -⟩
      rw [hreuses] at hrenewed
      cases hrenewed
    | false => exact renew_returns_iff hreuses hplanned free hactivation
  · rintro ⟨hrenewed, b', hb', hunreadable⟩
    rw [hplanned] at hb'
    cases hb'
    obtain ⟨cls, hcls⟩ := classOf_of_activation hactivation
    have hwritten : written b (p.artifact settings a) p.files = .error (.fault .badStatement) := by
      rw [written, Source.compile_of_hasUnreadableImport hcls hunreadable]
      rfl
    rw [runFrom_activateFromCache_renew origin settings binds p a free hrenewed, runFrom_plan, hplanned]
    dsimp only
    rw [runFrom_renew]
    dsimp only
    rw [hwritten]
    rfl

/-- A class and a mixin whose module no import can name. -/
def dashed : Session where
  world :=
    { World.fresh with
      classes := World.fresh.classes ++
        #[{ name := "Cart", qualname := "Cart", home := "shop", order := [7, World.objectId],
            slots := [("total", .routine .ofInstance 9)] },
          { name := "Rebate", qualname := "Rebate", home := "my-shop", order := [8, World.objectId],
            slots := [("rate", .routine .ofInstance 9)] }]
      functions := World.fresh.functions.push
        { name := "total", qualname := "Cart.total", home := "shop", params := [{ name := "self" }], body := .nothing } }
  files := { here := ⟨"/", ["shop"]⟩ }

def sale : Request := { name := "Sale", base := .live 7 ⟨"shop", "Cart"⟩, mixins := [.live 8 ⟨"my-shop", "Rebate"⟩] }

theorem activateFromCache_returns_iff_dashed :
    (∃ id, ((mix .live {} false sale).runFrom dashed).1 = .ok id) ∧
      ((activateFromCache .live {} false { path := ⟨"", ["sale.py"]⟩, request := sale }).runFrom dashed).1 =
        .error (.fault .badStatement) := by
  generalize ha : ({ path := ⟨"", ["sale.py"]⟩, request := sale } : ArtifactRequest) = a
  have hrequest : sale = a.request := by rw [← ha]
  have hsome : ((mix .live {} false sale).runFrom dashed).1.toOption.isSome = true := by decide +kernel
  have hrenewed : dashed.reuses {} a = false := by
    rw [← ha]
    decide +kernel
  have hcompiled : Outcome.failure? ((planned .live {} sale dashed.world).1.bind (Source.compile true)) =
      some (.fault .badStatement) := by decide +kernel
  rw [hrequest] at hsome hcompiled ⊢
  generalize dashed = p at *
  have hmix := Outcome.exists_eq_ok_of_isSome hsome
  obtain ⟨b, id, hplanned, -, hactivation⟩ := mix_returns_iff.1 hmix
  obtain ⟨cls, hcls⟩ := classOf_of_activation hactivation
  rw [hplanned] at hcompiled
  obtain ⟨path, hlocal⟩ | ⟨-, hunreadable⟩ :=
    Source.compile_eq_error (isBuilt_of_planned hplanned).1 hcls (Outcome.eq_error_of_failure? hcompiled)
  · cases hlocal
  · exact ⟨hmix, (activateFromCache_returns_iff hmix).2.1 ⟨hrenewed, b, hplanned, hunreadable⟩⟩

end Amalgam.Session
