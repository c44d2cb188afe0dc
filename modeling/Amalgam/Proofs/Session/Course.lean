import Amalgam.Proofs.Session.Registry

/-!
# The course of a call

What a call does is settled by two things that it undertakes: it may load the code of a file, and it may define a blueprint
without a file (`Undertaking`). Every call takes one of three courses (`Session.course_of_run`): it stops before anything is
defined, or the file gives the class, or the blueprint is defined, whether that succeeds or not.
-/

namespace Amalgam

open World (execute)

/-! ## What a call undertakes -/

/-- What a call does for its composite: it may load the code of a file, and then define a blueprint in some world. -/
structure Undertaking where
  loads : Option Source.Code := none
  defines : Option (Blueprint × World) := none

/-- The code that a file holds. -/
def Files.code? (fs : Files) (path : Path) : Option Source.Code :=
  match fs.file? path with
  | some (.code code) => some code
  | _ => none

/-- The code of a blueprint, if it has any. -/
def Blueprint.print? (b : Blueprint) : Option String := (Source.compile false b).toOption.map Source.Code.print

namespace Session

variable (origin : Origin) (settings : Settings) (a : ArtifactRequest) (q : Request) (p : Session)

/-- What a mix undertakes. -/
def mixes : Undertaking where
  defines := (planned origin settings q p.world).1.toOption.map (·, p.world)

/-- What is undertaken with an artifact that is looked for in the given files, for a blueprint that depends on the world. -/
def loads (fs : Files) (plan : World → Except Failure Blueprint) : Undertaking where
  loads := fs.code? (p.artifact settings a)
  defines :=
    match loading settings (p.artifact settings a) a.request.name fs p.world with
    | (.ok _, _) => none
    | (.error _, w) => (plan w).toOption.map (·, w)

/-- What a request by way of an artifact undertakes: the artifact is loaded as it is, or once it is written. -/
def caches : Undertaking :=
  if p.reuses settings a then p.loads settings a p.files fun w => (planned origin settings a.request w).1
  else
    match (planned origin settings a.request p.world).1 with
    | .error _ => {}
    | .ok b =>
      match written b (p.artifact settings a) p.files with
      | .ok files => p.loads settings a files fun _ => .ok b
      | .error e => if isWriteFailure e then { defines := some (b, p.world) } else {}

end Session

namespace Call

open Session

def settings? : Call → Option Settings
  | mix _ settings _ _ => some settings
  | activate settings _ _ => some settings
  | cache _ settings _ _ => some settings
  | clear => none

/-- The name of the module that a call makes for its composite. -/
def module? (c : Call) : Option String := c.settings?.bind fun settings => c.name?.map settings.moduleName

/-- A call for a name that a composite has. -/
def isTaken (p : Session) (c : Call) : Bool := c.name?.any p.composites.has

/-- What a call undertakes; nothing is done for a name that is taken. -/
def undertakes (p : Session) (c : Call) : Undertaking :=
  if c.isTaken p then {}
  else
    match c with
    | mix origin settings _ q => p.mixes origin settings q
    | activate _ _ b => { defines := some (b, p.world) }
    | cache origin settings _ a => p.caches origin settings a
    | clear => {}

end Call

namespace Session

variable {origin : Origin} {settings : Settings} {binds : Bool} {b : Blueprint} {q : Request} {a : ArtifactRequest}
  {name : String} {p p' s : Session} {w w' : World} {e : Failure} {c : Call} {u : Undertaking}

/-! ## Courses -/

/-- Code is run in the module for a name, with nothing bound beforehand. -/
structure ForFile (settings : Settings) (name : String) (l : World.Launch) : Prop where
  module : l.module = settings.moduleName name
  name : l.name = name
  seed : l.seed = []

/-- What a file leads to in a world where it gives no class: its code fails, if it holds any. -/
def LeadsTo (settings : Settings) (name : String) (u : Undertaking) (w w' : World) : Prop :=
  u.loads = none ∧ w' = w ∨ ∃ l code e, u.loads = some code ∧ ForFile settings name l ∧
    (execute l code).runFrom w = (.error e, w')

/-- The registry and the bindings are as they were. -/
structure Retains (p p' : Session) : Prop where
  composites : p'.composites = p.composites
  bound : p'.bound = p.bound

/-- How a call for a composite comes to its end. -/
inductive Course (settings : Settings) (name : String) (p : Session) (u : Undertaking) (p' : Session) :
    Except Failure Nat → Prop where
  | stopped {e : Failure} (defines : u.defines = none) (leads : LeadsTo settings name u p.world p'.world)
    (retains : Retains p p') (lines : p'.lines = p.lines) : Course settings name p u p' (.error e)
  | loaded {l : World.Launch} {code : Source.Code} {id : Nat} (loads : u.loads = some code)
    (launch : ForFile settings name l) (free : p.composites.has name = false)
    (run : (execute l code).runFrom p.world = (.ok id, p'.world))
    (composites : p'.composites = p.composites.put (p'.world.cls id).name id) (lines : p'.lines = p.lines) :
    Course settings name p u p' (.ok id)
  | defined {b : Blueprint} {w : World} {r : Except Failure Nat} (defines : u.defines = some (b, w)) (named : b.name = name)
    (leads : LeadsTo settings name u p.world w) (free : p.composites.has name = false)
    (run : activation settings b w = (r, p'.world))
    (lines : p'.lines = (b.print?.map (p.lines.put (fileName (settings.moduleName name)))).getD p.lines)
    (retains : ∀ e, r = .error e → Retains p p')
    (composites : ∀ id, r = .ok id → p'.composites = p.composites.put (p'.world.cls id).name id) :
    Course settings name p u p' r

/-- Where nothing was undertaken, nothing has changed. -/
theorem Course.idle (hcomposites : p'.composites = p.composites) (hbound : p'.bound = p.bound)
    (hworld : p'.world = p.world) (hlines : p'.lines = p.lines) : Course settings name p {} p' (.error e) :=
  .stopped rfl (Or.inl ⟨rfl, hworld⟩) ⟨hcomposites, hbound⟩ hlines

theorem leadsTo_loading {path : Path} {fs : Files} (h : loading settings path name fs w = (.error e, w'))
    (hloads : u.loads = fs.code? path) : LeadsTo settings name u w w' := by
  unfold loading at h
  unfold Files.code? at hloads
  split at h
  · rename_i code hfile
    rw [hfile] at hloads
    exact Or.inr ⟨_, code, e, hloads, ⟨rfl, rfl, rfl⟩, h⟩
  all_goals
    rename_i hfile
    rw [hfile] at hloads
    cases h
    exact Or.inl ⟨hloads, rfl⟩

/-- A blueprint is defined in a session that differs from the one of the call in its world at most. -/
theorem course_of_activate (hdefines : u.defines = some (b, s.world)) (hnamed : b.name = name)
    (hleads : LeadsTo settings name u p.world s.world) (hcomposites : s.composites = p.composites) (hbound : s.bound = p.bound)
    (hlines : s.lines = p.lines) (free : p.composites.has name = false) :
    Course settings name p u ((activate settings binds b).runFrom s).2 ((activate settings binds b).runFrom s).1 := by
  have hlined : s.lined settings b = (b.print?.map (p.lines.put (fileName (settings.moduleName name)))).getD p.lines := by
    unfold lined Blueprint.print?
    rw [hnamed, hlines]
    cases Source.compile false b <;> rfl
  have free' : s.composites.has b.name = false := by rw [hcomposites, hnamed, free]
  rw [runFrom_activate settings binds b s free']
  cases hactivation : activation settings b s.world with
  | mk r w =>
    cases r with
    | error e =>
      exact .defined hdefines hnamed hleads free hactivation hlined (fun _ _ => ⟨hcomposites, hbound⟩)
        fun id h => by cases h
    | ok id =>
      refine .defined hdefines hnamed hleads free hactivation hlined (fun e h => by cases h) fun id' h => ?_
      cases h
      exact congrArg (Entries.put · _ _) hcomposites

/-- A request is planned and defined in a session that differs from the one of the call in its world at most. -/
theorem course_of_mix (hname : q.name = name)
    (hdefines : u.defines = (planned origin settings q s.world).1.toOption.map (·, s.world))
    (hleads : LeadsTo settings name u p.world s.world) (hcomposites : s.composites = p.composites) (hbound : s.bound = p.bound)
    (hlines : s.lines = p.lines) (free : p.composites.has name = false) :
    Course settings name p u ((mix origin settings binds q).runFrom s).2 ((mix origin settings binds q).runFrom s).1 := by
  rw [runFrom_mix, runFrom_plan]
  cases hplanned : (planned origin settings q s.world).1 with
  | error e =>
    rw [hplanned] at hdefines
    exact .stopped hdefines hleads ⟨hcomposites, hbound⟩ hlines
  | ok b =>
    rw [hplanned] at hdefines
    exact course_of_activate hdefines ((isBuilt_of_planned hplanned).2.trans hname) hleads hcomposites hbound hlines free

/-- The file of an artifact gives a class, or the request goes on without it. -/
theorem course_of_loading {fs : Files} {plan : World → Except Failure Blueprint} {r : Except Failure Nat}
    (free : p.composites.has a.request.name = false)
    (found : ∀ id w, loading settings (p.artifact settings a) a.request.name fs p.world = (.ok id, w) →
      r = .ok id ∧ p'.world = w ∧ p'.composites = p.composites.put (w.cls id).name id ∧ p'.lines = p.lines)
    (missed : ∀ e w u, loading settings (p.artifact settings a) a.request.name fs p.world = (.error e, w) →
      u.defines = (plan w).toOption.map (·, w) → LeadsTo settings a.request.name u p.world w →
      Course settings a.request.name p u p' r) : Course settings a.request.name p (p.loads settings a fs plan) p' r := by
  have hloads : (p.loads settings a fs plan).loads = fs.code? (p.artifact settings a) := rfl
  cases hload : loading settings (p.artifact settings a) a.request.name fs p.world with
  | mk r' w =>
    cases r' with
    | error e =>
      have hdefines : (p.loads settings a fs plan).defines = (plan w).toOption.map (·, w) := by rw [loads, hload]
      exact missed e w _ hload hdefines (leadsTo_loading hload hloads)
    | ok id =>
      obtain ⟨rfl, hworld, hcomposites, hlines⟩ := found id w hload
      unfold loading at hload
      unfold Files.code? at hloads
      split at hload
      · rename_i code hfile
        rw [hfile] at hloads
        subst hworld
        exact .loaded hloads ⟨rfl, rfl, rfl⟩ free hload hcomposites hlines
      all_goals cases hload

theorem course_of_cache (free : p.composites.has a.request.name = false) :
    Course settings a.request.name p (p.caches origin settings a) ((activateFromCache origin settings binds a).runFrom p).2
      ((activateFromCache origin settings binds a).runFrom p).1 := by
  unfold caches
  cases hreuses : p.reuses settings a with
  | true =>
    rw [runFrom_activateFromCache_reuse origin settings binds p a free hreuses, if_pos rfl]
    refine course_of_loading free ?_ ?_
    · intro id w hload
      rw [hload]
      exact ⟨rfl, rfl, rfl, rfl⟩
    · intro e w u hload hdefines hleads
      rw [hload]
      exact course_of_mix rfl hdefines hleads rfl rfl rfl free
  | false =>
    rw [runFrom_activateFromCache_renew origin settings binds p a free hreuses, runFrom_plan, if_neg Bool.false_ne_true]
    cases hplanned : (planned origin settings a.request p.world).1 with
    | error e => exact .idle rfl rfl rfl rfl
    | ok b =>
      have hname := (isBuilt_of_planned hplanned).2
      dsimp only
      rw [runFrom_renew]
      dsimp only
      cases hwritten : written b (p.artifact settings a) p.files with
      | error e =>
        dsimp only
        cases hrecovered : isWriteFailure e with
        | false => exact .idle rfl rfl rfl rfl
        | true =>
          rw [if_pos rfl, if_pos rfl]
          exact course_of_activate rfl hname (Or.inl ⟨rfl, rfl⟩) rfl rfl rfl free
      | ok files =>
        dsimp only
        refine course_of_loading free ?_ ?_
        · intro id w hload
          rw [hload]
          exact ⟨rfl, rfl, rfl, rfl⟩
        · intro e w u hload hdefines hleads
          rw [hload]
          exact course_of_activate hdefines hname hleads rfl rfl rfl free

/-- Every call for a composite takes a course; one for a name that is taken does nothing but fail. -/
theorem course_of_act {act : Act Session Nat} (hact : c.act? = some act) (hsettings : c.settings? = some settings)
    (hname : c.name? = some name) :
    Course settings name p (c.undertakes p) (act.runFrom p).2 (act.runFrom p).1 := by
  unfold Call.undertakes
  cases htaken : c.isTaken p with
  | true =>
    rw [if_pos rfl]
    cases c with
    | clear => cases hact
    | activate settings binds b =>
      cases hact
      rw [runFrom_activate_taken settings binds b p htaken]
      exact .idle rfl rfl rfl rfl
    | cache origin settings binds a =>
      cases hact
      rw [runFrom_activateFromCache_taken origin settings binds p a htaken]
      exact .idle rfl rfl rfl rfl
    | mix origin settings binds q =>
      cases hact
      rw [runFrom_mix, runFrom_plan]
      cases hplanned : (planned origin settings q p.world).1 with
      | error e => exact .idle rfl rfl rfl rfl
      | ok b =>
        dsimp only
        rw [runFrom_activate_taken settings binds b _ ((isBuilt_of_planned hplanned).2 ▸ htaken)]
        exact .idle rfl rfl rfl rfl
  | false =>
    rw [if_neg Bool.false_ne_true]
    cases c with
    | clear => cases hact
    | activate settings binds b =>
      cases hact
      cases hsettings
      cases hname
      exact course_of_activate rfl rfl (Or.inl ⟨rfl, rfl⟩) rfl rfl rfl htaken
    | mix origin settings binds q =>
      cases hact
      cases hsettings
      cases hname
      exact course_of_mix rfl rfl (Or.inl ⟨rfl, rfl⟩) rfl rfl rfl htaken
    | cache origin settings binds a =>
      cases hact
      cases hsettings
      cases hname
      exact course_of_cache htaken

theorem module?_eq_some {module : String} (h : c.module? = some module) :
    ∃ settings name, c.settings? = some settings ∧ c.name? = some name ∧ module = settings.moduleName name := by
  obtain ⟨settings, hsettings, h⟩ := Option.bind_eq_some_iff.1 h
  obtain ⟨name, hname, rfl⟩ := Option.map_eq_some_iff.1 h
  exact ⟨settings, name, hsettings, hname, rfl⟩

theorem course_of_failed {module : String} (hmodule : c.module? = some module) (failed : (c.run p).1 = .error e) :
    ∃ settings name, c.name? = some name ∧ module = settings.moduleName name ∧
      Course settings name p (c.undertakes p) (p.next c) (.error e) := by
  obtain ⟨settings, name, hsettings, hname, rfl⟩ := module?_eq_some hmodule
  obtain ⟨act, hact⟩ := exists_act (c := c) (by rintro rfl; cases hname)
  have hcourse := course_of_act (p := p) hact hsettings hname
  unfold next
  rw [run_eq hact] at failed ⊢
  generalize act.runFrom p = r at failed hcourse
  obtain ⟨r, s⟩ := r
  cases r with
  | ok id => cases failed
  | error e' =>
    cases failed
    exact ⟨settings, name, hname, rfl, hcourse⟩

theorem course_of_returned {id : Nat} (h : (c.run p).1 = .ok (some id)) :
    ∃ settings name, c.name? = some name ∧ c.module? = some (settings.moduleName name) ∧
      Course settings name p (c.undertakes p) (p.next c) (.ok id) := by
  have hrun : c.run p = (.ok (some id), p.next c) := Prod.ext h rfl
  obtain ⟨act, hact, hrun⟩ := act_of_run hrun
  obtain ⟨settings, hsettings⟩ : ∃ settings, c.settings? = some settings := by
    cases c with
    | clear => cases hact
    | _ => exact ⟨_, rfl⟩
  obtain ⟨name, hname⟩ : ∃ name, c.name? = some name := by
    cases c with
    | clear => cases hact
    | _ => exact ⟨_, rfl⟩
  have hcourse := course_of_act (p := p) hact hsettings hname
  rw [hrun] at hcourse
  refine ⟨settings, name, hname, ?_, hcourse⟩
  rw [Call.module?, hsettings, hname]
  rfl

end Session

end Amalgam
