import Amalgam.Proofs.World.Loading
import Amalgam.Session

/-!
# The steps of a session

What planning, activating and loading come to depends on the world of a session and on the code in the files, and on the
rest of it only through the names that are taken. Each step is given as what it makes of a session, so that later proofs
need not open the definitions of the steps.
-/

namespace Amalgam.Session

variable (origin : Origin) (settings : Settings) (binds : Bool) (q : Request) (b : Blueprint) (p : Session)

/-! ## In a world -/

/-- What a plan comes to in a world, and the notices it leaves. -/
def planned (w : World) : Except Failure Blueprint × List Notice :=
  match origin with
  | .live =>
    let (r, t) := (Blueprint.build (Provider.live w) defaults settings.isStrict q).runFrom { provider := {} }
    (r, t.notices)
  | .manifests ms =>
    let (r, t) := (Blueprint.build (Provider.ofManifests ms) defaults settings.isStrict q).runFrom { provider := () }
    (r, t.notices)

/-- What the activation of a blueprint comes to in a world. -/
def activation (w : World) : Except Failure Nat × World :=
  match Source.compile false b with
  | .error e => (.error e, w)
  | .ok code =>
    match seed w b with
    | .error e => (.error e, w)
    | .ok names => (World.execute (inProcess settings b names) code).runFrom w

/-- What the loading of an artifact comes to in a world. -/
def loading (path : Path) (name : String) (fs : Files) (w : World) : Except Failure Nat × World :=
  match fs.file? path with
  | some (.code code) => (World.execute (fromFile settings path name) code).runFrom w
  | some (.text _) => (.error (.fault .syntaxError), w)
  | some .bytes => (.error (.fault .undecodable), w)
  | none => (.error (.fault .file), w)

theorem outlives_activation (w : World) : w.Outlives (activation settings b w).2 := by
  unfold activation
  split
  · exact World.Outlives.refl w
  · split
    · exact World.Outlives.refl w
    · exact World.outlives_execute _ _ w

theorem outlives_loading (path : Path) (name : String) (fs : Files) (w : World) :
    w.Outlives (loading settings path name fs w).2 := by
  unfold loading
  split
  · exact World.outlives_execute _ _ w
  all_goals exact World.Outlives.refl w

/-! ## In a session -/

theorem runFrom_plan : (plan origin settings q).runFrom p =
    ((planned origin settings q p.world).1, { p with notices := p.notices ++ (planned origin settings q p.world).2 }) := by
  cases origin <;> rfl

theorem runFrom_ensureAvailable (name : String) : (ensureAvailable name).runFrom p =
    if p.composites.has name then (.error (.duplicateType name), p) else (.ok ⟨⟩, p) := by
  unfold ensureAvailable
  rw [Act.runFrom_bind, Act.runFrom_get]
  dsimp only
  split <;> rfl

theorem runFrom_inWorld {α : Type} (act : Act World α) : (inWorld act).runFrom p =
    ((act.runFrom p.world).1, { p with world := (act.runFrom p.world).2 }) := rfl

theorem runFrom_note (n : Notice) : (note n).runFrom p = (.ok ⟨⟩, { p with notices := p.notices ++ [n] }) := rfl

/-- The lines that an activation leaves, whatever comes of running them. -/
def lined : Entries String :=
  match Source.compile false b with
  | .error _ => p.lines
  | .ok code => p.lines.put (fileName (settings.moduleName b.name)) code.print

/-- An activation takes the name of its class, if it succeeds. -/
theorem runFrom_activate (free : p.composites.has b.name = false) : (activate settings binds b).runFrom p =
    match activation settings b p.world with
    | (.ok id, w) => (.ok id, registered
        { p with world := w, lines := p.lined settings b, notices := p.notices ++ [.activated b.name] } id binds)
    | (.error e, w) => (.error e, { p with world := w, lines := p.lined settings b }) := by
  unfold activate activation lined
  simp only [Act.runFrom_bind, runFrom_ensureAvailable, free, Bool.false_eq_true, if_false, Act.runFrom_ofExcept]
  cases Source.compile false b with
  | error e => rfl
  | ok code =>
    simp only [Act.runFrom_modify, Act.runFrom_get]
    cases seed p.world b with
    | error e => rfl
    | ok names =>
      dsimp only
      rw [runFrom_inWorld]
      generalize (World.execute (inProcess settings b names) code).runFrom p.world = r
      obtain ⟨r, w⟩ := r
      cases r <;> rfl

theorem runFrom_mix : (mix origin settings binds q).runFrom p = match (plan origin settings q).runFrom p with
    | (.ok b, p') => (activate settings binds b).runFrom p'
    | (.error e, p') => (.error e, p') := by
  unfold mix
  rw [Act.runFrom_bind]
  generalize (plan origin settings q).runFrom p = r
  obtain ⟨r, p'⟩ := r
  cases r <;> rfl

/-! ## By way of a file -/

theorem runFrom_loadArtifact (path : Path) (name : String) : (loadArtifact settings path name).runFrom p =
    ((loading settings path name p.files p.world).1, { p with world := (loading settings path name p.files p.world).2 }) := by
  unfold loadArtifact loading
  rw [Act.runFrom_bind, Act.runFrom_get]
  dsimp only
  cases p.files.file? path with
  | none => rfl
  | some body => cases body <;> rfl

theorem runFrom_reuse (path : Path) (name : String) : (reuse settings path name).runFrom p =
    match loading settings path name p.files p.world with
    | (.ok id, w) => (.ok (some id), { p with world := w, notices := p.notices ++ [.loaded name path.text] })
    | (.error e, w) => (.ok none, { p with world := w, notices := p.notices ++ [.setback .unloadable path.text e] }) := by
  unfold reuse
  rw [Act.runFrom_tryCatch, Act.runFrom_bind, runFrom_loadArtifact]
  generalize loading settings path name p.files p.world = r
  obtain ⟨r, w⟩ := r
  cases r <;> rfl

/-- The files once the artifact of a blueprint is written. -/
def written (path : Path) (fs : Files) : Except Failure Files := do
  let code ← Source.compile true b
  (fs.write path (.code code)).mapError fun _ => .fault .file

/-- The files once it was attempted to write what was rendered, if anything was. -/
def attempted (path : Path) (fs : Files) : Except Failure Source.Code → Files
  | .ok code => (fs.attempt path (.code code)).1
  | .error _ => fs

theorem runFrom_writeArtifact (path : Path) : (writeArtifact path b).runFrom p =
    match written b path p.files with
    | .ok files => (.ok ⟨⟩, { p with files })
    | .error e => (.error e, { p with files := attempted path p.files (Source.compile true b) }) := by
  unfold writeArtifact written
  rw [Act.runFrom_bind, Act.runFrom_ofExcept]
  cases Source.compile true b with
  | error e => rfl
  | ok code =>
    dsimp only
    unfold write
    rw [Act.runFrom_bind, Act.runFrom_get]
    dsimp only
    show _ = match (p.files.write path (.code code)).mapError fun _ => Failure.fault .file with
      | .ok files => _
      | .error e => _
    unfold Files.write attempted
    dsimp only
    generalize p.files.attempt path (.code code) = done
    obtain ⟨files, fault⟩ := done
    cases fault <;> rfl

/-- A blueprint is written and loaded; what may be done without is noted. -/
theorem runFrom_renew (path : Path) (name : String) : (renew settings path name b).runFrom p =
    match written b path p.files with
    | .error e =>
      let p' := { p with files := attempted path p.files (Source.compile true b) }
      if isWriteFailure e then (.ok none, { p' with notices := p.notices ++ [.setback .unwritten path.text e] })
      else (.error e, p')
    | .ok files =>
      match loading settings path name files p.world with
      | (.ok id, w) => (.ok (some id), { p with files, world := w, notices := p.notices ++ [.written name path.text] })
      | (.error e, w) =>
        (.ok none, { p with files, world := w, notices := p.notices ++ [.setback .unusable path.text e] }) := by
  unfold renew
  rw [Act.runFrom_bind, Act.runFrom_tryCatch, Act.runFrom_bind, runFrom_writeArtifact]
  cases written b path p.files with
  | error e =>
    dsimp only
    cases isWriteFailure e <;> rfl
  | ok files =>
    dsimp only
    rw [Act.runFrom_pure]
    dsimp only
    rw [if_neg (by decide)]
    rw [Act.runFrom_tryCatch, Act.runFrom_bind, runFrom_loadArtifact]
    dsimp only
    generalize loading settings path name files p.world = r
    obtain ⟨r, w⟩ := r
    cases r <;> rfl

/-! ## A whole request -/

/-- Where the artifact of a request stands in a session. -/
def artifact (a : ArtifactRequest) : Path := settings.resolve p.files.here a.path

/-- Whether the artifact of a request is there and is to be used. -/
def reuses (a : ArtifactRequest) : Bool := !a.rewrites && p.files.isFile (p.artifact settings a)

theorem runFrom_activateFromCache_taken (a : ArtifactRequest) (taken : p.composites.has a.request.name = true) :
    (activateFromCache origin settings binds a).runFrom p = (.error (.duplicateType a.request.name), p) := by
  unfold activateFromCache
  rw [Act.runFrom_bind, runFrom_ensureAvailable, if_pos taken]

theorem runFrom_activate_taken (taken : p.composites.has b.name = true) :
    (activate settings binds b).runFrom p = (.error (.duplicateType b.name), p) := by
  unfold activate
  rw [Act.runFrom_bind, runFrom_ensureAvailable, if_pos taken]

/-- An artifact that is there is loaded, and the request mixed if that fails. -/
theorem runFrom_activateFromCache_reuse (a : ArtifactRequest) (free : p.composites.has a.request.name = false)
    (h : p.reuses settings a = true) : (activateFromCache origin settings binds a).runFrom p =
      match loading settings (p.artifact settings a) a.request.name p.files p.world with
      | (.ok id, w) => (.ok id, registered
          { p with world := w, notices := p.notices ++ [.loaded a.request.name (p.artifact settings a).text] } id binds)
      | (.error e, w) => (mix origin settings binds a.request).runFrom
          { p with world := w, notices := p.notices ++ [.setback .unloadable (p.artifact settings a).text e] } := by
  unfold reuses at h
  unfold activateFromCache
  simp only [Act.runFrom_bind, runFrom_ensureAvailable, free, Bool.false_eq_true, if_false, Act.runFrom_get]
  unfold artifact at h ⊢
  rw [if_pos h, Act.runFrom_bind, runFrom_reuse]
  generalize loading settings _ a.request.name p.files p.world = r
  obtain ⟨r, w⟩ := r
  cases r <;> rfl

/-- An artifact that is not used is made anew, and its blueprint activated if that fails. -/
theorem runFrom_activateFromCache_renew (a : ArtifactRequest) (free : p.composites.has a.request.name = false)
    (h : p.reuses settings a = false) : (activateFromCache origin settings binds a).runFrom p =
      match (plan origin settings a.request).runFrom p with
      | (.error e, p') => (.error e, p')
      | (.ok b, p') =>
        match (renew settings (p.artifact settings a) a.request.name b).runFrom p' with
        | (.error e, p'') => (.error e, p'')
        | (.ok (some id), p'') => (.ok id, p''.registered id binds)
        | (.ok none, p'') => (activate settings binds b).runFrom p'' := by
  unfold reuses at h
  unfold activateFromCache
  simp only [Act.runFrom_bind, runFrom_ensureAvailable, free, Bool.false_eq_true, if_false, Act.runFrom_get]
  unfold artifact at h ⊢
  rw [if_neg (by rw [h]; decide), Act.runFrom_bind]
  generalize (plan origin settings a.request).runFrom p = r
  obtain ⟨r, p'⟩ := r
  cases r with
  | error e => rfl
  | ok b =>
    dsimp only
    rw [Act.runFrom_bind]
    generalize (renew settings _ a.request.name b).runFrom p' = r
    obtain ⟨r, p''⟩ := r
    cases r with
    | error e => rfl
    | ok id => cases id <;> rfl

end Amalgam.Session
