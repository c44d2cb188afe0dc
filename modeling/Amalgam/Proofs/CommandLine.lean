import Amalgam.CommandLine
import Amalgam.Proofs.Blueprint.Asking
import Amalgam.Proofs.Files
import Amalgam.Proofs.Notice
import Amalgam.Proofs.Session.Recovery
import Amalgam.Proofs.Settings
import Amalgam.Proofs.Source.Writing

/-!
# How commands end

A command ends with an exit code, but for a few inputs that it does not answer (`CommandLine.Escapes`): a project file that gives
no settings, a class to be imported from a module whose name begins with a dot, and code that cannot be written.
`CommandLine.run_ends` says so, and what a command that ends has put out, told and written.
-/

namespace Amalgam

/-! ## Definitions in files -/

namespace Definition

/-- What a definition names, it names by texts. -/
theorem exists_text_of_mem_types {d : Definition} {type : TypeLike} (h : type ∈ d.request.types) : ∃ text, type = .text text := by
  simp only [Request.types, request, List.cons_append, List.mem_cons, List.mem_append, List.mem_map, List.mem_flatMap] at h
  rcases h with rfl | ⟨text, -, rfl⟩ | ⟨_, ⟨⟨member, c⟩, -, rfl⟩, h⟩
  · exact ⟨_, rfl⟩
  · exact ⟨text, rfl⟩
  · cases c with
    | path f => cases h
    | ordered f order =>
      cases order with
      | none => cases h
      | some names =>
        obtain ⟨text, -, rfl⟩ := List.mem_map.1 h
        exact ⟨text, rfl⟩

/-- A file that holds no definition is refused. -/
theorem isOwn_of_ofFile {fs : Files} {path : Path} {e : Failure} (h : ofFile fs path = .error e) : e.isOwn = true := by
  unfold ofFile at h
  dsimp only at h
  split at h
  · cases h
    rfl
  · cases hread : (textOf fs path >>= documentOf path.suffix.toLower) with
    | error cause =>
      rw [hread] at h
      cases h
      rfl
    | ok d =>
      rw [hread] at h
      obtain ⟨complaints, -, rfl⟩ := Outcome.mapError_eq_error.1 h
      rfl

end Definition

namespace CommandLine

open Session (planned)

/-! ## What is rendered -/

/-- What the caller of a rendering gives in place of what a project file says. -/
def overridesOf (isStrict : Bool) : Settings.Overrides := { isStrict := if isStrict then some (.bool true) else none }

theorem isPlain_overridesOf (isStrict : Bool) : (overridesOf isStrict).IsPlain where
  isStrict := by
    intro d h
    cases isStrict <;> cases h
    exact ⟨true, rfl⟩
  cacheDir := rfl
  modulePrefix := rfl

/-- What a rendering reads: the settings above a file that is there, and the definition in it. -/
structure Reads (fs : Files) (path : Path) (isStrict : Bool) (settings : Settings) (d : Definition) : Prop where
  file : fs.isFile path = true
  settings : Settings.load fs (overridesOf isStrict) (fs.here.normal path).parent = .ok settings
  definition : Definition.ofFile fs path = .ok d

/-- The blueprint of a definition is built, and its artifact is the code. -/
structure Renders (w : World) (settings : Settings) (d : Definition) (b : Blueprint) (code : Source.Code) : Prop where
  blueprint : (planned d.origin settings d.request w).1 = .ok b
  artifact : Source.compile true b = .ok code

/-- The inputs that a command does not answer. -/
inductive Escapes (p : Session) : Command → Prop where
  /-- The project file above a definition gives no settings. -/
  | unsettled {path : Path} {out : Option Path} {isStrict : Bool} : p.files.isFile path = true →
    ¬Settings.Loads p.files (p.files.here.normal (p.files.here.normal path).parent) → Escapes p (.render path out isStrict)
  /-- A definition without manifests comes to name a class of a module whose name begins with a dot. -/
  | relative {path : Path} {out : Option Path} {isStrict : Bool} {settings : Settings} {d : Definition} {text : String}
    {r : SymbolRef} {c : Roster} : Reads p.files path isStrict settings d → d.manifests = none →
    Blueprint.Asks (Provider.live p.world) Session.defaults d.request { provider := {} } (.text text) c →
    SymbolRef.WritesRelative text r → r.path ∉ c.classes.keys → Escapes p (.render path out isStrict)
  /-- The class that is planned, or an import that it needs, cannot be written. -/
  | unwritable {path : Path} {out : Option Path} {isStrict : Bool} {settings : Settings} {d : Definition} {b : Blueprint} :
    Reads p.files path isStrict settings d → (planned d.origin settings d.request p.world).1 = .ok b →
    ¬b.IsWritable ∨ Source.HasUnreadableImport b → Escapes p (.render path out isStrict)
  /-- The class to be inspected is named in a module whose name begins with a dot. -/
  | inspected {target : String} {role : Option Role} {r : SymbolRef} : SymbolRef.WritesRelative target r →
    Escapes p (.inspect target role)

variable {p p' : Session} {path : Path} {out : Option Path} {isStrict : Bool} {settings : Settings} {d : Definition}

/-- What a plan of a definition fails in and is not refused for. -/
theorem planned_fails_iff {e : Failure} (he : e.isOwn = false) {w : World} :
    (planned d.origin settings d.request w).1 = .error e ↔ e = .fault .type ∧ d.manifests = none ∧ ∃ text r c,
      Blueprint.Asks (Provider.live w) Session.defaults d.request { provider := {} } (.text text) c ∧
        SymbolRef.WritesRelative text r ∧ r.path ∉ c.classes.keys := by
  cases hmanifests : d.manifests with
  | some ms =>
    rw [Definition.origin, hmanifests]
    refine iff_of_false (fun h => ?_) fun h => nomatch h.2.1
    have hown : e.isOwn = true := Blueprint.isOwn_of_build_ofManifests (Prod.ext h rfl)
    rw [he] at hown
    cases hown
  | none =>
    have hlive := @Blueprint.failed_live_iff w Session.defaults settings.isStrict d.request { provider := {} } .new
      (fun _ => Definition.exists_text_of_mem_types) e he
    rw [Definition.origin, hmanifests, eq_self, true_and, ← hlive]
    exact ⟨fun h => ⟨_, Prod.ext h rfl⟩, fun ⟨_, h⟩ => congrArg Prod.fst h⟩

/-- The code of a definition and the name of its class, as far as planning and compiling go. -/
def coded (w : World) (settings : Settings) (d : Definition) : Except Failure (String × Source.Code) := do
  let b ← (planned d.origin settings d.request w).1
  let code ← Source.compile true b
  return (b.name, code)

theorem coded_of_error {w : World} {e : Failure} (h : (planned d.origin settings d.request w).1 = .error e) :
    coded w settings d = .error e := by
  unfold coded
  rw [h]
  rfl

theorem coded_of_ok {w : World} {b : Blueprint} (h : (planned d.origin settings d.request w).1 = .ok b) :
    coded w settings d = (Source.compile true b).map (b.name, ·) := by
  unfold coded
  rw [h]
  show (Source.compile true b >>= fun code => pure (b.name, code)) = _
  cases Source.compile true b <;> rfl

theorem coded_eq_ok {w : World} {name : String} {code : Source.Code} (h : coded w settings d = .ok (name, code)) :
    ∃ b, Renders w settings d b code := by
  obtain ⟨b, hb, h⟩ := Outcome.bind_eq_ok.1 h
  obtain ⟨code', hcode, h⟩ := Outcome.bind_eq_ok.1 h
  cases h
  exact ⟨b, hb, hcode⟩

/-- What a definition cannot be coded for, and is not refused for. -/
theorem coded_fails_iff {w : World} : (∃ e, coded w settings d = .error e ∧ e.isOwn = false) ↔
    (∃ e, (planned d.origin settings d.request w).1 = .error e ∧ e.isOwn = false) ∨
      ∃ b, (planned d.origin settings d.request w).1 = .ok b ∧ (¬b.IsWritable ∨ Source.HasUnreadableImport b) := by
  cases hplanned : (planned d.origin settings d.request w).1 with
  | error e => simp [coded_of_error hplanned]
  | ok b =>
    have hfails : ∀ e, (Source.compile true b).map (b.name, ·) = .error e ↔ Source.compile true b = .error e := fun e => by
      cases Source.compile true b <;> simp [Except.map]
    simp only [coded_of_ok hplanned, hfails, reduceCtorEq, false_and, exists_false, false_or, Except.ok.injEq, exists_eq_left']
    exact Source.compile_fails_iff (Session.isBuilt_of_planned hplanned).1

/-- Where settings and a definition are had, a rendering escapes exactly if coding does. -/
theorem escapes_render_iff (out : Option Path) (reads : Reads p.files path isStrict settings d) : Escapes p (.render path out isStrict) ↔
    ∃ e, coded p.world settings d = .error e ∧ e.isOwn = false := by
  rw [coded_fails_iff]
  constructor
  · intro h
    cases h with
    | unsettled _ hloads => exact absurd ((Settings.exists_load_iff (isPlain_overridesOf isStrict)).1 ⟨_, reads.settings⟩) hloads
    | relative reads' hmanifests hasks hrelative hnew =>
      obtain rfl := Except.ok.inj (reads'.settings.symm.trans reads.settings)
      obtain rfl := Except.ok.inj (reads'.definition.symm.trans reads.definition)
      exact Or.inl ⟨.fault .type, (planned_fails_iff rfl).2 ⟨rfl, hmanifests, _, _, _, hasks, hrelative, hnew⟩, rfl⟩
    | unwritable reads' hplanned hunwritable =>
      obtain rfl := Except.ok.inj (reads'.settings.symm.trans reads.settings)
      obtain rfl := Except.ok.inj (reads'.definition.symm.trans reads.definition)
      exact Or.inr ⟨_, hplanned, hunwritable⟩
  · rintro (⟨e, hplanned, he⟩ | ⟨b, hplanned, hunwritable⟩)
    · obtain ⟨-, hmanifests, text, r, c, hasks, hrelative, hnew⟩ := (planned_fails_iff he).1 hplanned
      exact .relative reads hmanifests hasks hrelative hnew
    · exact .unwritable reads hplanned hunwritable

/-! ## Running a command -/

/-- A session after something was told. -/
def Told (p : Session) (notices : List Notice) : Session := { p with notices := p.notices ++ notices }

theorem told_nil (p : Session) : Told p [] = p := by simp [Told]

theorem told_told (p : Session) (first more : List Notice) : Told (Told p first) more = Told p (first ++ more) := by
  simp [Told]

theorem runFrom_codeOf_unread {e : Failure} (h : Definition.ofFile p.files path = .error e) :
    (codeOf path settings).runFrom p = (.error e, p) := by
  unfold codeOf
  rw [Act.runFrom_bind, Act.runFrom_get]
  dsimp only
  rw [Act.runFrom_bind, Act.runFrom_ofExcept, h]

theorem runFrom_codeOf (h : Definition.ofFile p.files path = .ok d) : (codeOf path settings).runFrom p =
    (coded p.world settings d, Told p (planned d.origin settings d.request p.world).2) := by
  unfold codeOf
  rw [Act.runFrom_bind, Act.runFrom_get]
  dsimp only
  rw [Act.runFrom_bind, Act.runFrom_ofExcept, h]
  dsimp only
  rw [Act.runFrom_bind, Session.runFrom_plan]
  cases hplanned : (planned d.origin settings d.request p.world).1 with
  | error e =>
    rw [coded_of_error hplanned]
    rfl
  | ok b =>
    dsimp only
    rw [Act.runFrom_bind, Act.runFrom_ofExcept, coded_of_ok hplanned]
    cases Source.compile true b <;> rfl

/-- What comes of writing code to a file. -/
theorem runFrom_deliver (target : Path) (name : String) (code : Source.Code) :
    (deliver (some target) name code).runFrom p = match p.files.attempt target (.code code) with
      | (files, some fault) =>
        (.ok { code := failure }, { p with files, notices := p.notices ++ [.cannotWrite target.text fault.message] })
      | (files, none) => (.ok { code := success }, { p with files, notices := p.notices ++ [.rendered name target.text] }) := by
  unfold deliver
  dsimp only
  rw [Act.runFrom_bind, Act.runFrom_get]
  dsimp only
  generalize p.files.attempt target (.code code) = done
  obtain ⟨files, fault⟩ := done
  cases fault <;> rfl

theorem runFrom_render_missing (h : p.files.isFile path = false) : (render path out isStrict).runFrom p =
    (.ok { code := failure }, Told p [.definitionMissing path.text]) := by
  unfold render
  rw [Act.runFrom_bind, Act.runFrom_get]
  dsimp only
  rw [h]
  rfl

theorem runFrom_render_unsettled {e : Failure} (h : p.files.isFile path = true)
    (hload : Settings.load p.files (overridesOf isStrict) (p.files.here.normal path).parent = .error e) :
    (render path out isStrict).runFrom p = (.error e, p) := by
  unfold render
  rw [Act.runFrom_bind, Act.runFrom_get]
  dsimp only
  rw [h, if_neg (by decide), Act.runFrom_bind, Act.runFrom_ofExcept]
  rw [overridesOf] at hload
  rw [hload]

/-- What comes of a rendering whose settings are had. -/
theorem runFrom_render (h : p.files.isFile path = true)
    (hload : Settings.load p.files (overridesOf isStrict) (p.files.here.normal path).parent = .ok settings) :
    (render path out isStrict).runFrom p = match (codeOf path settings).runFrom p with
      | (.ok (name, code), u) => (deliver out name code).runFrom u
      | (.error e, u) =>
        if e.isOwn then (.ok { code := failure }, Told u [.cannotRender path.text (e.message?.getD "")]) else (.error e, u) := by
  unfold render
  rw [Act.runFrom_bind, Act.runFrom_get]
  dsimp only
  rw [h, if_neg (by decide), Act.runFrom_bind, Act.runFrom_ofExcept]
  rw [overridesOf] at hload
  rw [hload]
  dsimp only
  rw [Act.runFrom_bind, Act.runFrom_tryCatch, Act.runFrom_bind]
  generalize (codeOf path settings).runFrom p = done
  obtain ⟨outcome, u⟩ := done
  cases outcome with
  | ok made => rfl
  | error e =>
    dsimp only
    cases e.isOwn <;> rfl

/-- What comes of an inspection. -/
theorem runFrom_inspect {target : String} {role : Option Role} : (inspect target role).runFrom p =
    match ((manifestFor p.world target role).runFrom {}).1 with
      | .ok m => (.ok { code := success, output := Document.Json.writeIndented false "" m.document ++ "\n" }, p)
      | .error e =>
        if e.isOwn then (.ok { code := failure }, Told p [.cannotInspect target (e.message?.getD "")]) else (.error e, p) := by
  unfold inspect reporting
  rw [Act.runFrom_tryCatch, Act.runFrom_bind, Act.runFrom_get]
  dsimp only
  rw [Act.runFrom_bind, Act.runFrom_ofExcept]
  generalize ((manifestFor p.world target role).runFrom {}).1 = outcome
  cases outcome with
  | ok m => rfl
  | error e =>
    dsimp only
    cases e.isOwn <;> rfl

/-- A class that is found is described, so what fails is to find it. -/
theorem manifestFor_fails_iff {w : World} {target : String} (role : Option Role) {e : Failure} (he : e.isOwn = false) :
    ((manifestFor w target role).runFrom {}).1 = .error e ↔ e = .fault .type ∧ ∃ r, SymbolRef.WritesRelative target r := by
  have hresolve := @Roster.resolve_failed_iff w target {} e he
  simp only [Entries.keys, List.map_nil, List.not_mem_nil, not_false_eq_true, and_true] at hresolve
  rw [← hresolve]
  unfold manifestFor
  cases hrun : (Roster.resolve w (.text target)).runFrom {} with
  | mk outcome c =>
    have hask : ((Provider.live w).resolve (.text target)).runFrom {} = (outcome, c) := hrun
    cases outcome with
    | error e' =>
      rw [Act.bind_of_error hask]
      simp
    | ok r =>
      rw [Act.bind_of_ok hask]
      refine iff_of_false (fun h => ?_) (by rintro ⟨_, h⟩; cases h)
      cases hmanifest : (Roster.manifest w r).runFrom c with
      | mk described c' =>
        have hserved : ((Provider.live w).manifest r).runFrom c = (described, c') := hmanifest
        cases described with
        | error e' => exact (Roster.manifest_eq_error hmanifest).2 (Roster.mem_keys_of_resolve hrun)
        | ok m =>
          rw [Act.bind_of_ok hserved] at h
          cases role <;> cases h

/-! ## How commands end -/

/--
A command that fails and says so: nothing is put out, the failure is the last of what is told, and no file is touched. If it is
the last step that fails, to write the code, directories may have been made for it.
-/
structure Reports (p : Session) (command : Command) (o : Outcome) (p' : Session) : Prop where
  code : o.code = failure
  output : o.output = ""
  told : ∃ earlier n, p'.notices = p.notices ++ earlier ++ [n] ∧ n.level = .error
  files : p'.files = p.files ∨ ∃ path target isStrict settings d b code fault, command = .render path (some target) isStrict ∧
    Reads p.files path isStrict settings d ∧ Renders p.world settings d b code ∧
      p.files.attempt target (.code code) = (p'.files, some fault) ∧ p.files.Adds p'.files

/-- A command that succeeds: a rendering puts out the artifact or, given a path, makes it the file at the place of that path. -/
inductive Succeeds (p : Session) : Command → Outcome → Session → Prop where
  | shown {path : Path} {isStrict : Bool} {settings : Settings} {d : Definition} {b : Blueprint} {code : Source.Code}
    {p' : Session} : Reads p.files path isStrict settings d → Renders p.world settings d b code → p'.files = p.files →
    Succeeds p (.render path none isStrict) { code := success, output := code.print } p'
  | written {path target : Path} {isStrict : Bool} {settings : Settings} {d : Definition} {b : Blueprint} {code : Source.Code}
    {made : Files} {p' : Session} : Reads p.files path isStrict settings d → Renders p.world settings d b code →
    p.files.Adds made → p'.files = made.put (p.files.place target) (.file (.code code)) →
    Succeeds p (.render path (some target) isStrict) { code := success } p'
  | inspected {target : String} {role : Option Role} {m : Manifest} {c : Roster} {p' : Session} :
    (manifestFor p.world target role).runFrom {} = (.ok m, c) → p'.files = p.files →
    Succeeds p (.inspect target role)
      { code := success, output := Document.Json.writeIndented false "" m.document ++ "\n" } p'
  | schema {p' : Session} : p'.files = p.files → Succeeds p .schema CommandLine.schema p'

/-- How a command ends: but for the inputs that escape it succeeds or reports; what escapes leaves the files as they are. -/
structure Ends (p : Session) (command : Command) (r : Except Failure Outcome) (p' : Session) : Prop where
  told : ∃ told, p' = { p with files := p'.files, notices := p.notices ++ told }
  shown : ∀ n ∈ p'.notices, ∀ c : Console, ∃ lines, c.log n.level n.message = .ok lines
  answered : (∃ o, r = .ok o) ↔ ¬Escapes p command
  outcome : ∀ o, r = .ok o → Succeeds p command o p' ∨ Reports p command o p'
  untouched : ∀ e, r = .error e → p'.files = p.files

variable {command : Command}

theorem Ends.of_error {e : Failure} (h : Escapes p command) {told : List Notice} (htold : p' = Told p told) :
    Ends p command (.error e) p' where
  told := ⟨told, by rw [htold]; rfl⟩
  shown n _ := Notice.exists_log n
  answered := iff_of_false (fun h => nomatch h.choose_spec) (not_not.2 h)
  outcome _ h := nomatch h
  untouched _ _ := by rw [htold]; rfl

theorem Ends.of_ok {o : Outcome} (h : ¬Escapes p command) (told : ∃ told, p' = { p with files := p'.files, notices := p.notices ++ told })
    (ends : Succeeds p command o p' ∨ Reports p command o p') : Ends p command (.ok o) p' where
  told := told
  shown n _ := Notice.exists_log n
  answered := iff_of_true ⟨o, rfl⟩ h
  outcome _ h := Except.ok.inj h ▸ ends
  untouched _ h := nomatch h

/-- A failure is reported by an exit code and a notice. -/
theorem Ends.of_reported (told : List Notice) (n : Notice) (h : ¬Escapes p command) (hn : n.level = .error)
    (htold : p' = Told p (told ++ [n])) : Ends p command (.ok { code := failure }) p' := by
  subst htold
  exact .of_ok h ⟨told ++ [n], rfl⟩ (Or.inr ⟨rfl, rfl, ⟨told, n, (List.append_assoc _ _ _).symm, hn⟩, Or.inl rfl⟩)

/-- What is coded is delivered, or the failure to write it reported. -/
theorem ends_deliver (reads : Reads p.files path isStrict settings d) {b : Blueprint} {name : String} {code : Source.Code}
    (renders : Renders p.world settings d b code) (told : List Notice) (h : ¬Escapes p (.render path out isStrict)) :
    Ends p (.render path out isStrict) ((deliver out name code).runFrom (Told p told)).1
      ((deliver out name code).runFrom (Told p told)).2 := by
  cases out with
  | none => exact .of_ok h ⟨told, rfl⟩ (Or.inl (.shown reads renders rfl))
  | some target =>
    have hspec := Files.attempt_spec p.files target (.code code)
    have hattempt : (Told p told).files.attempt target (.code code) = p.files.attempt target (.code code) := rfl
    rw [runFrom_deliver, hattempt]
    cases hdone : p.files.attempt target (.code code) with
    | mk files fault =>
      rw [hdone] at hspec
      have hnotices : ∀ n, (Told p told).notices ++ [n] = p.notices ++ (told ++ [n]) := fun n => List.append_assoc _ _ _
      cases fault with
      | none =>
        obtain ⟨made, hadds, hput⟩ := hspec.2 rfl
        exact .of_ok h ⟨told ++ [_], by rw [← hnotices]; rfl⟩ (Or.inl (.written reads renders hadds hput))
      | some fault =>
        have hadds := hspec.1 fault rfl
        refine .of_ok h ⟨told ++ [_], by rw [← hnotices]; rfl⟩ (Or.inr ⟨rfl, rfl, ⟨told, _, rfl, rfl⟩, Or.inr ?_⟩)
        exact ⟨path, target, isStrict, settings, d, b, code, fault, rfl, reads, renders, hdone, hadds⟩

theorem ends_render (path : Path) (out : Option Path) (isStrict : Bool) : Ends p (.render path out isStrict)
    ((render path out isStrict).runFrom p).1 ((render path out isStrict).runFrom p).2 := by
  cases hfile : p.files.isFile path with
  | false =>
    rw [runFrom_render_missing hfile]
    refine Ends.of_reported [] (.definitionMissing path.text) (fun h => ?_) rfl rfl
    cases h with
    | unsettled hfile' _ => cases hfile.symm.trans hfile'
    | relative reads _ _ _ _ => cases hfile.symm.trans reads.file
    | unwritable reads _ _ => cases hfile.symm.trans reads.file
  | true =>
    cases hload : Settings.load p.files (overridesOf isStrict) (p.files.here.normal path).parent with
    | error e =>
      rw [runFrom_render_unsettled hfile hload]
      refine Ends.of_error (.unsettled hfile fun hloads => ?_) (told_nil p).symm
      obtain ⟨settings, hsettings⟩ := (Settings.exists_load_iff (isPlain_overridesOf isStrict)).2 hloads
      cases hload.symm.trans hsettings
    | ok settings =>
      rw [runFrom_render hfile hload]
      cases hread : Definition.ofFile p.files path with
      | error e =>
        rw [runFrom_codeOf_unread hread]
        dsimp only
        rw [if_pos (Definition.isOwn_of_ofFile hread)]
        refine Ends.of_reported [] (.cannotRender _ _) (fun h => ?_) rfl rfl
        cases h with
        | unsettled _ hloads => exact hloads ((Settings.exists_load_iff (isPlain_overridesOf isStrict)).1 ⟨_, hload⟩)
        | relative reads _ _ _ _ => cases hread.symm.trans reads.definition
        | unwritable reads _ _ => cases hread.symm.trans reads.definition
      | ok d =>
        have reads : Reads p.files path isStrict settings d := ⟨hfile, hload, hread⟩
        have hescapes := escapes_render_iff out reads
        rw [runFrom_codeOf hread]
        cases hcoded : coded p.world settings d with
        | ok made =>
          obtain ⟨name, code⟩ := made
          obtain ⟨b, renders⟩ := coded_eq_ok hcoded
          refine ends_deliver reads renders _ fun h => ?_
          obtain ⟨e, he, -⟩ := hescapes.1 h
          cases hcoded.symm.trans he
        | error e =>
          dsimp only
          cases hown : e.isOwn with
          | true =>
            rw [if_pos rfl]
            refine Ends.of_reported _ (.cannotRender _ _) (fun h => ?_) rfl (told_told _ _ _)
            obtain ⟨e', he, hother⟩ := hescapes.1 h
            obtain rfl := Except.error.inj (hcoded.symm.trans he)
            cases hown.symm.trans hother
          | false =>
            rw [if_neg (by decide)]
            exact Ends.of_error (hescapes.2 ⟨e, hcoded, hown⟩) rfl

theorem ends_inspect (target : String) (role : Option Role) : Ends p (.inspect target role)
    ((inspect target role).runFrom p).1 ((inspect target role).runFrom p).2 := by
  have hescapes : Escapes p (.inspect target role) ↔ ∃ r, SymbolRef.WritesRelative target r := by
    refine ⟨fun h => ?_, fun ⟨r, h⟩ => .inspected h⟩
    cases h with
    | inspected h => exact ⟨_, h⟩
  rw [runFrom_inspect]
  cases hrun : (manifestFor p.world target role).runFrom {} with
  | mk outcome c =>
    cases outcome with
    | ok m =>
      refine Ends.of_ok (fun h => ?_) ⟨[], by simp⟩ (Or.inl (.inspected hrun rfl))
      have hfails := (manifestFor_fails_iff (w := p.world) role rfl).2 ⟨rfl, hescapes.1 h⟩
      rw [hrun] at hfails
      cases hfails
    | error e =>
      dsimp only
      cases hown : e.isOwn with
      | true =>
        rw [if_pos rfl]
        refine Ends.of_reported [] (.cannotInspect _ _) (fun h => ?_) rfl rfl
        have hfails := (manifestFor_fails_iff (w := p.world) role rfl).2 ⟨rfl, hescapes.1 h⟩
        rw [hrun] at hfails
        cases hfails
        cases hown
      | false =>
        rw [if_neg (by decide)]
        have hfails := (manifestFor_fails_iff (w := p.world) role hown).1 (congrArg Prod.fst hrun)
        exact Ends.of_error (hescapes.2 hfails.2) (told_nil p).symm

/-- A program that has just started in a directory with nothing in it. -/
def started : Session where
  world := World.fresh
  files := { here := ⟨"/", ["shop"]⟩ }

end CommandLine

end Amalgam
