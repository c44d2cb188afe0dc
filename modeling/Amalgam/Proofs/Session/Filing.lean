import Amalgam.Proofs.Files
import Amalgam.Proofs.Session.Registry
import Amalgam.Proofs.Source.Prelude

/-!
# What a request does to the files

Activation and mixing touch no file (`Session.files_activate`, `Session.files_mix`), and neither does a request whose name is
taken, or whose artifact is there and is to be used. Of the others, only one that can be rendered attempts to write, and only
the artifact, as it is rendered (`Session.artifact_alone_written`).
-/

namespace Amalgam

/-- There is no artifact if a symbol cannot be imported. -/
theorem Source.compile_of_not_importable {b : Blueprint} {e : String × SymbolRef} (he : e ∈ b.symbols)
    (hlocal : e.2.importable = false) : ∃ failure, compile true b = .error failure := by
  cases hcode : compile true b with
  | error failure => exact ⟨failure, rfl⟩
  | ok code =>
    rw [compile_artifact (classOf_of_compile hcode)] at hcode
    cases himports : b.symbols.mapM fun e => importOf b e.1 e.2 with
    | error failure =>
      rw [himports] at hcode
      cases hcode
    | ok imports =>
      obtain ⟨line, -, hline⟩ := Outcome.exists_mem_of_forall₂ (Outcome.mapM_eq_ok.1 himports) he
      rw [importOf, hlocal] at hline
      cases hline

namespace Session

variable {origin : Origin} {settings : Settings} {binds : Bool} {a : ArtifactRequest} {p : Session} {b : Blueprint}

/-! ## Steps that touch no file -/

theorem files_activate (settings : Settings) (binds : Bool) (b : Blueprint) (p : Session) :
    ((activate settings binds b).runFrom p).2.files = p.files := by
  cases htaken : p.composites.has b.name with
  | true => rw [runFrom_activate_taken settings binds b p htaken]
  | false =>
    rw [runFrom_activate settings binds b p htaken]
    generalize activation settings b p.world = r
    obtain ⟨r, w⟩ := r
    cases r <;> rfl

theorem files_mix (origin : Origin) (settings : Settings) (binds : Bool) (q : Request) (p : Session) :
    ((mix origin settings binds q).runFrom p).2.files = p.files := by
  rw [runFrom_mix, runFrom_plan]
  cases (planned origin settings q p.world).1 with
  | error e => rfl
  | ok b => exact files_activate settings binds b _

theorem files_of_idle (h : p.composites.has a.request.name = true ∨ p.reuses settings a = true) :
    ((activateFromCache origin settings binds a).runFrom p).2.files = p.files := by
  cases htaken : p.composites.has a.request.name with
  | true => rw [runFrom_activateFromCache_taken origin settings binds p a htaken]
  | false =>
    have reused : p.reuses settings a = true := h.resolve_left (by rw [htaken]; decide)
    rw [runFrom_activateFromCache_reuse origin settings binds p a htaken reused]
    generalize loading settings (p.artifact settings a) a.request.name p.files p.world = r
    obtain ⟨r, w⟩ := r
    cases r with
    | ok id => rfl
    | error e => exact files_mix origin settings binds a.request _

/-- An artifact that is there and can be loaded is all that a request asks for, whatever it would be planned from. -/
theorem runFrom_of_loaded (free : p.composites.has a.request.name = false) (reused : p.reuses settings a = true)
    (loaded : ∃ id, (loading settings (p.artifact settings a) a.request.name p.files p.world).1 = .ok id) (origin' : Origin)
    {q : Request} (hname : q.name = a.request.name) :
    (activateFromCache origin' settings binds { a with request := q }).runFrom p =
      (activateFromCache origin settings binds a).runFrom p := by
  rw [runFrom_activateFromCache_reuse origin settings binds p a free reused,
    runFrom_activateFromCache_reuse origin' settings binds p { a with request := q } (by rw [hname]; exact free) reused]
  dsimp only
  rw [hname, show p.artifact settings { a with request := q } = p.artifact settings a from rfl]
  generalize loading settings (p.artifact settings a) a.request.name p.files p.world = r at loaded
  obtain ⟨r, w⟩ := r
  obtain ⟨id, rfl⟩ := loaded
  rfl

/-! ## Artifacts that are made -/

theorem outcome_render (imports : Bool) (q : Request) : ((render origin settings imports q).runFrom p).1 =
    (planned origin settings q p.world).1 >>= Source.compile imports := by
  unfold render
  rw [Act.runFrom_bind, runFrom_plan]
  cases (planned origin settings q p.world).1 <;> rfl

theorem attempted_of_written {path : Path} {fs files : Files} (h : written b path fs = .ok files) :
    attempted path fs (Source.compile true b) = files := by
  obtain ⟨code, hcode, h⟩ := Outcome.bind_eq_ok.1 h
  have hattempt := Files.write_eq_ok_iff.1 (Outcome.mapError_eq_ok.1 h)
  rw [hcode, attempted, hattempt]

/-- Whatever comes of making an artifact, the files are as the attempt leaves them. -/
theorem files_renew (settings : Settings) (path : Path) (name : String) (b : Blueprint) (p : Session) :
    ((renew settings path name b).runFrom p).2.files = attempted path p.files (Source.compile true b) := by
  rw [runFrom_renew]
  cases hwritten : written b path p.files with
  | error e => dsimp only; split <;> rfl
  | ok files =>
    rw [attempted_of_written hwritten]
    dsimp only
    generalize loading settings path name files p.world = r
    obtain ⟨r, w⟩ := r
    cases r <;> rfl

/-- A request whose artifact is not used attempts to write what it renders, and nothing if it renders nothing. -/
theorem files_of_renewed (free : p.composites.has a.request.name = false) (renewed : p.reuses settings a = false) :
    ((activateFromCache origin settings binds a).runFrom p).2.files =
      attempted (p.artifact settings a) p.files ((render origin settings true a.request).runFrom p).1 := by
  rw [runFrom_activateFromCache_renew origin settings binds p a free renewed, outcome_render, runFrom_plan]
  cases (planned origin settings a.request p.world).1 with
  | error e => rfl
  | ok b =>
    dsimp only
    have hrenew := files_renew settings (p.artifact settings a) a.request.name b
      { p with notices := p.notices ++ (planned origin settings a.request p.world).2 }
    generalize (renew settings (p.artifact settings a) a.request.name b).runFrom _ = r at hrenew
    obtain ⟨r, p'⟩ := r
    cases r with
    | error e => exact hrenew
    | ok made =>
      cases made with
      | some id => exact hrenew
      | none => exact (files_activate settings binds b p').trans hrenew

/-- No request by way of an artifact touches another file. -/
theorem spares_activateFromCache (origin : Origin) (settings : Settings) (binds : Bool) (a : ArtifactRequest) (p : Session) :
    p.files.Spares (p.files.place (p.artifact settings a)) ((activateFromCache origin settings binds a).runFrom p).2.files := by
  by_cases hidle : p.composites.has a.request.name = true ∨ p.reuses settings a = true
  · rw [files_of_idle hidle]
    exact Files.Spares.refl _ _
  · simp only [not_or, Bool.not_eq_true] at hidle
    rw [files_of_renewed hidle.1 hidle.2]
    cases ((render origin settings true a.request).runFrom p).1 with
    | ok code => exact Files.spares_attempt _ _ _
    | error e => exact Files.Spares.refl _ _

/--
What a request by way of an artifact does to the files, for every session. Nothing, if its name is taken or its artifact is
there and is to be used; and if the artifact loads then, the run is the same whatever the contributors are and whatever tells
of them. Nothing either, if no artifact can be rendered: because the plan fails, or a symbol of it cannot be imported, or for
any other reason. Else, if the artifact can be written, the file has the text that is rendered; and if not, some directories
are made at most. In no case does anything else change, directories on the way to the artifact apart.
-/
theorem artifact_alone_written (origin : Origin) (settings : Settings) (binds : Bool) (a : ArtifactRequest) (p : Session) :
    let after := ((activateFromCache origin settings binds a).runFrom p).2.files
    let path := p.artifact settings a
    let plan := (planned origin settings a.request p.world).1
    let rendered := ((render origin settings true a.request).runFrom p).1
    (p.composites.has a.request.name = true ∨ p.reuses settings a = true → after = p.files) ∧
      (p.composites.has a.request.name = false ∧ p.reuses settings a = true ∧
          (∃ id, (loading settings path a.request.name p.files p.world).1 = .ok id) →
        ∀ (origin' : Origin) (q : Request), q.name = a.request.name →
          (activateFromCache origin' settings binds { a with request := q }).runFrom p =
            (activateFromCache origin settings binds a).runFrom p) ∧
      (p.composites.has a.request.name = false ∧ p.reuses settings a = false →
        (∀ e, rendered = .error e → after = p.files) ∧
          (∀ e, plan = .error e → rendered = .error e) ∧
          (∀ b, plan = .ok b → (∃ e ∈ b.symbols, e.2.importable = false) → ∃ e, rendered = .error e) ∧
          ∀ code, rendered = .ok code →
            (∀ files, p.files.write path (.code code) = .ok files → after = files ∧
              (∃ body, after.node? (p.files.place path) = some (.file body) ∧ body.text? = some code.print) ∧
              ∀ body, after.file? path = some body → body.text? = some code.print) ∧
            ∀ fault, p.files.write path (.code code) = .error fault → p.files.Adds after) ∧
      after.here = p.files.here ∧
      ∀ q : Path, q.text ≠ (p.files.place path).text →
        after.node? q = p.files.node? q ∨ p.files.node? q = none ∧ after.node? q = some .directory := by
  intro after path plan rendered
  have hrendered : rendered = plan >>= Source.compile true := outcome_render true a.request
  obtain ⟨hhere, hnode⟩ := spares_activateFromCache origin settings binds a p
  refine ⟨files_of_idle, fun ⟨free, reused, loaded⟩ origin' q hname => runFrom_of_loaded free reused loaded origin' hname,
    fun ⟨free, renewed⟩ => ⟨fun e he => ?_, fun e he => ?_, fun b hb ⟨e, he, hlocal⟩ => ?_, fun code hcode => ?_⟩,
    hhere, hnode⟩
  · exact (files_of_renewed free renewed).trans (congrArg (attempted path p.files) he)
  · rw [hrendered, he]
    rfl
  · rw [hrendered, hb]
    exact Source.compile_of_not_importable he hlocal
  · have hafter : after = (p.files.attempt path (.code code)).1 :=
      (files_of_renewed free renewed).trans (congrArg (attempted path p.files) hcode)
    refine ⟨fun files hfiles => ?_, fun fault hfault => ?_⟩
    · obtain rfl : after = files := by
        rw [hafter, Files.write_eq_ok_iff.1 hfiles]
      obtain ⟨made, -, hput⟩ := Files.write_eq_ok hfiles
      refine ⟨rfl, ⟨.code code, ?_, rfl⟩, fun body hbody => ?_⟩
      · rw [hput]
        exact Files.node?_put_self made rfl _
      · rw [Files.file?_write hfiles hbody]
        rfl
    · rw [hafter]
      exact Files.adds_of_write_eq_error hfault

/-- The artifact of a deal, which is not there yet. -/
def dealing : ArtifactRequest where
  path := ⟨"", ["deals", "deal.py"]⟩
  request := deal "Deal"

theorem artifact_alone_written_shop : ∃ code files, ((render .live {} true dealing.request).runFrom shop).1 = .ok code ∧
    shop.files.write (shop.artifact {} dealing) (.code code) = .ok files ∧
    ∃ body, ((activateFromCache .live {} false dealing).runFrom shop).2.files.node? ⟨"/", ["shop", "deals", "deal.py"]⟩ =
      some (.file body) ∧ body.text? = some code.print := by
  have hrendered : ((render .live {} true dealing.request).runFrom shop).1.toOption.isSome = true := by decide +kernel
  obtain ⟨code, hcode⟩ := Outcome.exists_eq_ok_of_isSome hrendered
  have hwrite : ∀ body, ∃ files, shop.files.write (shop.artifact {} dealing) body = .ok files := fun body => ⟨_, rfl⟩
  obtain ⟨files, hfiles⟩ := hwrite (.code code)
  have hnew := (artifact_alone_written .live {} false dealing shop).2.2.1 ⟨by decide +kernel, by decide +kernel⟩
  exact ⟨code, files, hcode, hfiles, ((hnew.2.2.2 code hcode).1 files hfiles).2.1⟩

end Session

end Amalgam
