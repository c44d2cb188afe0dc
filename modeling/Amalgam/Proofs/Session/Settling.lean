import Amalgam.Proofs.Files
import Amalgam.Proofs.Session.Recovery
import Amalgam.Proofs.World.Recorded

/-!
# What a call for a composite leaves

A call for a composite leaves all objects of its world in place, and if it fails, the registry as well (`Session.Settles`).
A class that is returned was defined by code that the call found or made, under a name that was free, and it is registered
under its own name (`Session.ComesOf`).
-/

namespace Amalgam

namespace Session

open World (Outlives execute)

variable {origin : Origin} {settings : Settings} {binds : Bool} {q : Request} {a : ArtifactRequest} {b : Blueprint}
  {p p' : Session} {id : Nat}

/-! ## What every call leaves -/

/-- What a call for a composite leaves: more objects, and the registry if it fails. -/
structure Settles (p : Session) (r : Except Failure Nat × Session) : Prop where
  world : p.world.Outlives r.2.world
  composites : ∀ e, r.1 = .error e → r.2.composites = p.composites

/-- A call may be prepared by what leaves the registry as it is. -/
theorem Settles.prepared {r : Except Failure Nat × Session} (h : Settles p' r) (hworld : p.world.Outlives p'.world)
    (hcomposites : p'.composites = p.composites) : Settles p r :=
  ⟨hworld.trans h.world, fun e he => (h.composites e he).trans hcomposites⟩

theorem settles_activate (settings : Settings) (binds : Bool) (b : Blueprint) (p : Session) :
    Settles p ((activate settings binds b).runFrom p) := by
  cases htaken : p.composites.has b.name with
  | true =>
    rw [runFrom_activate_taken settings binds b p htaken]
    exact ⟨Outlives.refl _, fun _ _ => rfl⟩
  | false =>
    have hworld := outlives_activation settings b p.world
    rw [runFrom_activate settings binds b p htaken]
    generalize activation settings b p.world = r at hworld
    obtain ⟨r, w⟩ := r
    cases r with
    | ok id => exact ⟨hworld, fun e he => (by cases he)⟩
    | error e => exact ⟨hworld, fun _ _ => rfl⟩

theorem settles_mix (origin : Origin) (settings : Settings) (binds : Bool) (q : Request) (p : Session) :
    Settles p ((mix origin settings binds q).runFrom p) := by
  rw [runFrom_mix, runFrom_plan]
  cases (planned origin settings q p.world).1 with
  | error e => exact ⟨Outlives.refl _, fun _ _ => rfl⟩
  | ok b => exact (settles_activate settings binds b _).prepared (Outlives.refl _) rfl

theorem settles_activateFromCache (origin : Origin) (settings : Settings) (binds : Bool) (a : ArtifactRequest) (p : Session) :
    Settles p ((activateFromCache origin settings binds a).runFrom p) := by
  cases htaken : p.composites.has a.request.name with
  | true =>
    rw [runFrom_activateFromCache_taken origin settings binds p a htaken]
    exact ⟨Outlives.refl _, fun _ _ => rfl⟩
  | false =>
    have hworld := outlives_loading settings (p.artifact settings a) a.request.name
    cases hreuses : p.reuses settings a with
    | true =>
      rw [runFrom_activateFromCache_reuse origin settings binds p a htaken hreuses]
      have hworld := hworld p.files p.world
      generalize loading settings (p.artifact settings a) a.request.name p.files p.world = r at hworld
      obtain ⟨r, w⟩ := r
      cases r with
      | ok id => exact ⟨hworld, fun e he => (by cases he)⟩
      | error e => exact (settles_mix origin settings binds a.request _).prepared hworld rfl
    | false =>
      rw [runFrom_activateFromCache_renew origin settings binds p a htaken hreuses, runFrom_plan]
      cases (planned origin settings a.request p.world).1 with
      | error e => exact ⟨Outlives.refl _, fun _ _ => rfl⟩
      | ok b =>
        dsimp only
        rw [runFrom_renew]
        dsimp only
        cases written b (p.artifact settings a) p.files with
        | error e =>
          dsimp only
          cases isWriteFailure e with
          | true => exact (settles_activate settings binds b _).prepared (Outlives.refl _) rfl
          | false => exact ⟨Outlives.refl _, fun _ _ => rfl⟩
        | ok files =>
          dsimp only
          have hworld := hworld files p.world
          generalize loading settings (p.artifact settings a) a.request.name files p.world = r at hworld
          obtain ⟨r, w⟩ := r
          cases r with
          | ok id => exact ⟨hworld, fun e he => (by cases he)⟩
          | error e => exact (settles_activate settings binds b _).prepared hworld rfl

/-! ## Where a class comes from -/

/-- A class that a call for some name returns was defined by code, in the world of the call or in what became of it. -/
structure ComesOf (p : Session) (name : String) (id : Nat) (p' : Session) (code : Source.Code) : Prop where
  free : p.composites.has name = false
  composites : p'.composites = p.composites.put (p'.world.cls id).name id
  defined : ∃ l w, p.world.Outlives w ∧ l.name = name ∧ (execute l code).runFrom w = (.ok id, p'.world)

theorem ComesOf.prepared {name : String} {code : Source.Code} {s : Session} (h : ComesOf s name id p' code)
    (hworld : p.world.Outlives s.world) (hcomposites : s.composites = p.composites) : ComesOf p name id p' code := by
  obtain ⟨l, w, hw, hl, hrun⟩ := h.defined
  exact ⟨hcomposites ▸ h.free, hcomposites ▸ h.composites, l, w, hworld.trans hw, hl, hrun⟩

theorem comesOf_activate (h : (activate settings binds b).runFrom p = (.ok id, p')) :
    ∃ code, Source.compile false b = .ok code ∧ ComesOf p b.name id p' code := by
  cases htaken : p.composites.has b.name with
  | true =>
    rw [runFrom_activate_taken settings binds b p htaken] at h
    cases h
  | false =>
    rw [runFrom_activate settings binds b p htaken] at h
    unfold activation at h
    cases hcode : Source.compile false b with
    | error e =>
      rw [hcode] at h
      cases h
    | ok code =>
      rw [hcode] at h
      dsimp only at h
      cases hseed : seed p.world b with
      | error e =>
        rw [hseed] at h
        cases h
      | ok names =>
        rw [hseed] at h
        dsimp only at h
        cases hexecute : (execute (inProcess settings b names) code).runFrom p.world with
        | mk r w =>
          rw [hexecute] at h
          cases r with
          | error e => cases h
          | ok new =>
            cases h
            exact ⟨code, rfl, htaken, rfl, _, p.world, Outlives.refl _, rfl, hexecute⟩

theorem comesOf_mix (h : (mix origin settings binds q).runFrom p = (.ok id, p')) :
    ∃ b code, (planned origin settings q p.world).1 = .ok b ∧ Source.compile false b = .ok code ∧
      ComesOf p q.name id p' code := by
  rw [runFrom_mix, runFrom_plan] at h
  cases hplanned : (planned origin settings q p.world).1 with
  | error e =>
    rw [hplanned] at h
    cases h
  | ok b =>
    rw [hplanned] at h
    obtain ⟨code, hcode, hcomes⟩ := comesOf_activate h
    rw [(isBuilt_of_planned hplanned).2] at hcomes
    exact ⟨b, code, rfl, hcode, hcomes.prepared (Outlives.refl _) rfl⟩

theorem comesOf_loading {files : Files} {w : World} {notices : List Notice} (free : p.composites.has a.request.name = false)
    (hload : loading settings (p.artifact settings a) a.request.name files p.world = (.ok id, w))
    (hp' : p' = registered { p with files, world := w, notices } id binds) :
    ∃ code, files.file? (p.artifact settings a) = some (.code code) ∧ ComesOf p a.request.name id p' code ∧
      (code.Suits a.request.name → code.Serves a.request.name) := by
  unfold loading at hload
  split at hload
  · rename_i code hfile
    subst hp'
    exact ⟨code, hfile, ⟨free, rfl, _, p.world, Outlives.refl _, rfl, hload⟩,
      fun suits => World.serves_of_execute (l := fromFile settings (p.artifact settings a) a.request.name) rfl suits hload⟩
  all_goals cases hload

/-- The world in which a request by way of an artifact is planned, if need be. -/
def planningWorld (p : Session) (settings : Settings) (a : ArtifactRequest) : World :=
  if p.reuses settings a then (loading settings (p.artifact settings a) a.request.name p.files p.world).2 else p.world

/-- An artifact that is written and read back holds the code of its blueprint. -/
theorem compile_of_written {path : Path} {fs files : Files} (h : written b path fs = .ok files) {code : Source.Code}
    (hfile : files.file? path = some (.code code)) : Source.compile true b = .ok code := by
  obtain ⟨code', hcode, h⟩ := Outcome.bind_eq_ok.1 h
  cases hwrite : fs.write path (.code code') with
  | error cause =>
    rw [hwrite] at h
    cases h
  | ok made =>
    rw [hwrite] at h
    cases h
    cases Files.file?_write hwrite hfile
    exact hcode

theorem comesOf_activateFromCache (h : (activateFromCache origin settings binds a).runFrom p = (.ok id, p')) :
    ∃ code, ComesOf p a.request.name id p' code ∧
      (p.reuses settings a = true ∧ p.files.file? (p.artifact settings a) = some (.code code) ∧
          (code.Suits a.request.name → code.Serves a.request.name) ∨
        ∃ b isArtifact, (planned origin settings a.request (p.planningWorld settings a)).1 = .ok b ∧
          Source.compile isArtifact b = .ok code) := by
  obtain ⟨free, hanswers⟩ := activateFromCache_eq_ok h
  cases hanswers with
  | found reused load result =>
    obtain ⟨code, hfile, hcomes, hsuits⟩ := comesOf_loading free load result
    exact ⟨code, hcomes, Or.inl ⟨reused, hfile, hsuits⟩⟩
  | mixed reused load run =>
    have hworld := outlives_loading settings (p.artifact settings a) a.request.name p.files p.world
    rw [load] at hworld
    obtain ⟨b, code, hplanned, hcode, hcomes⟩ := comesOf_mix run
    refine ⟨code, hcomes.prepared hworld rfl, Or.inr ⟨b, false, ?_, hcode⟩⟩
    rw [planningWorld, reused, if_pos rfl, load]
    exact hplanned
  | made renewed plan write load result =>
    obtain ⟨code, hfile, hcomes, -⟩ := comesOf_loading free load result
    refine ⟨code, hcomes, Or.inr ⟨_, true, ?_, compile_of_written write hfile⟩⟩
    rw [planningWorld, renewed, if_neg Bool.false_ne_true]
    exact plan
  | activated what e renewed plan world composites warned run =>
    obtain ⟨code, hcode, hcomes⟩ := comesOf_activate run
    rw [(isBuilt_of_planned plan).2] at hcomes
    refine ⟨code, hcomes.prepared world composites, Or.inr ⟨_, false, ?_, hcode⟩⟩
    rw [planningWorld, renewed, if_neg Bool.false_ne_true]
    exact plan

end Session

end Amalgam
