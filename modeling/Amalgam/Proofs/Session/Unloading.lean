import Amalgam.Proofs.Session.Failing
import Amalgam.Proofs.World.Homes

/-!
# What a clear unloads

A run of calls starts without composites. As long as every artifact that is loaded holds code for the name that is asked
for, or does not know it, and no code sets the name or the module of a class, every composite stands in the module that was
made for it (`Session.Housing`). A clear then unloads these modules and no others, and the lines that are left were there
at the start or were left by a call that failed (`Session.clear_unloads`).
-/

namespace Amalgam

open World (execute Homely Housed Moves Tame)

/-! ## Calls that keep to their modules -/

/-- The code that a call may come to run: that of a file, and that of a blueprint. -/
def Undertaking.codes (u : Undertaking) : List Source.Code :=
  u.loads.toList ++ (u.defines.bind fun d => (Source.compile false d.1).toOption).toList

/-- Code of a file that defines a class of some name without dots, or that does not know the name. -/
def Source.Code.IsFor (code : Source.Code) (name : String) : Prop :=
  '.' ∉ name.toList ∧ (code.cls.name = name ∨ ∀ i ∈ code.imports, i.boundAs ≠ name)

instance (code : Source.Code) (name : String) : Decidable (code.IsFor name) := inferInstanceAs (Decidable (_ ∧ _))

theorem Undertaking.mem_codes_of_loads {u : Undertaking} {code : Source.Code} (h : u.loads = some code) : code ∈ u.codes := by
  rw [codes, h]
  exact List.mem_append_left _ List.mem_cons_self

theorem Undertaking.mem_codes_of_defines {u : Undertaking} {b : Blueprint} {w : World} {code : Source.Code}
    (h : u.defines = some (b, w)) (hcode : Source.compile false b = .ok code) : code ∈ u.codes := by
  rw [codes, h, Option.bind_some, hcode]
  exact List.mem_append_right _ List.mem_cons_self

namespace Session

/-- What is undertaken for a name keeps to the module of the name. -/
structure Tidy (name : String) (u : Undertaking) : Prop where
  homes : ∀ code ∈ u.codes, code.cls.KeepsHomes
  loads : ∀ code ∈ u.loads, code.IsFor name

instance (name : String) (u : Undertaking) : Decidable (Tidy name u) :=
  decidable_of_iff ((∀ code ∈ u.codes, code.cls.KeepsHomes) ∧ ∀ code ∈ u.loads, code.IsFor name)
    ⟨fun h => ⟨h.1, h.2⟩, fun h => ⟨h.1, h.2⟩⟩

/-- All calls of a run keep to the modules of their names, and none clears. -/
def TidyRun : Session → List Call → Prop
  | _, [] => True
  | p, c :: rest => (∃ name ∈ c.name?, Tidy name (c.undertakes p)) ∧ TidyRun (p.next c) rest

/-- The module that a call made for a class that it returns. -/
def madeBy (p : Session) (c : Call) : List String :=
  if (c.run p).1.toOption.join.isSome then c.module?.toList else []

/-- The modules that were made for the classes that a run returned. -/
def made : Session → List Call → List String
  | _, [] => []
  | p, c :: rest => p.madeBy c ++ made (p.next c) rest

/-- The module whose code a call compiled before it failed. -/
def abandonedBy (p : Session) (c : Call) : List String :=
  if (c.run p).1.toOption.isNone && (c.undertakes p).compiles?.isSome then c.module?.toList else []

/-- The modules whose code a call of a run compiled before it failed. -/
def abandoned : Session → List Call → List String
  | _, [] => []
  | p, c :: rest => p.abandonedBy c ++ abandoned (p.next c) rest

variable {settings : Settings} {b : Blueprint} {name module file : String} {p p' : Session} {w w' : World} {id : Nat}
  {r : Except Failure Nat} {c : Call} {u : Undertaking}

/-! ## One call -/

theorem moduleName_ne {settings settings' : Settings} {name other : String} (hname : '.' ∉ name.toList)
    (hother : '.' ∉ other.toList) (hne : name ≠ other) : settings.moduleName name ≠ settings'.moduleName other := by
  intro heq
  have hlists := congrArg (fun s : String => s.toList.reverse.takeWhile (· != '.')) heq
  have htake : ∀ (s : Settings) {n : String}, '.' ∉ n.toList →
      (s.moduleName n).toList.reverse.takeWhile (· != '.') = n.toList.reverse := by
    intro s n hn
    have hall : ∀ c ∈ n.toList.reverse, (c != '.') = true := by
      intro c hc
      have : c ≠ '.' := fun h => hn (h ▸ List.mem_reverse.1 hc)
      simpa using this
    have hdot : ".".toList = ['.'] := rfl
    simp only [Settings.moduleName, String.toList_append, List.reverse_append, hdot]
    rw [List.takeWhile_append_of_pos hall]
    simp
  simp only [htake _ hname, htake _ hother] at hlists
  exact hne (String.toList_inj.1 (List.reverse_injective hlists))

theorem dotless_of_isIdentifier (h : Text.isIdentifier name = true) : '.' ∉ name.toList := by
  unfold Text.isIdentifier at h
  have hstart : Text.isNameStart '.' = false := by decide +kernel
  have hcontinue : Text.isNameContinue '.' = false := by decide +kernel
  cases hlist : name.toList with
  | nil => simp
  | cons c rest =>
    rw [hlist, Bool.and_eq_true] at h
    intro hmem
    rcases List.mem_cons.1 hmem with rfl | hmem
    · rw [hstart] at h
      cases h.1
    · have := List.all_eq_true.1 h.2 _ hmem
      rw [hcontinue] at this
      cases this

/-- Code that is compiled is for a class whose name has no dots. -/
theorem dotless_of_compile {isArtifact : Bool} {code : Source.Code} (h : Source.compile isArtifact b = .ok code) :
    '.' ∉ b.name.toList ∧ code.cls.name = b.name := by
  obtain ⟨-, -, hname⟩ := Source.classOf_eq_ok (Source.classOf_of_compile h)
  refine ⟨?_, Source.nodeName_eq_ok hname⟩
  unfold Source.nodeName at hname
  split at hname
  · rename_i hidentifier
    exact dotless_of_isIdentifier hidentifier
  · cases hname

/-- An activation comes to nothing, or runs the code of its blueprint in the module of its name. -/
theorem activation_cases (settings : Settings) (b : Blueprint) (w : World) :
    (∃ e, activation settings b w = (.error e, w)) ∨ ∃ code l, Source.compile false b = .ok code ∧
      l.module = settings.moduleName b.name ∧ l.name = b.name ∧ l.file = fileName (settings.moduleName b.name) ∧
      activation settings b w = (execute l code).runFrom w := by
  unfold activation
  cases Source.compile false b with
  | error e => exact Or.inl ⟨e, rfl⟩
  | ok code =>
    cases seed w b with
    | error e => exact Or.inl ⟨e, rfl⟩
    | ok names => exact Or.inr ⟨code, inProcess settings b names, rfl, rfl, rfl, rfl, rfl⟩

/-- The world is as it was, or code was run in the module of a name without dots. -/
def Stays (settings : Settings) (name : String) (w w' : World) : Prop :=
  w' = w ∨ '.' ∉ name.toList ∧ Moves (settings.moduleName name) w w'

theorem Stays.trans {w'' : World} (h : Stays settings name w w') (h' : Stays settings name w' w'') :
    Stays settings name w w'' := by
  rcases h with rfl | ⟨hname, h⟩
  · exact h'
  · rcases h' with rfl | ⟨-, h'⟩
    · exact Or.inr ⟨hname, h⟩
    · exact Or.inr ⟨hname, h.trans h'⟩

theorem Stays.tame (h : Stays settings name w w') (tame : Tame Homely w) : Tame Homely w' := by
  rcases h with rfl | ⟨-, h⟩
  · exact tame
  · exact tame.evolves h.evolves

theorem LeadsTo.stays (h : LeadsTo settings name u w w') (tame : Tame Homely w) (tidy : Tidy name u) :
    Stays settings name w w' := by
  rcases h with ⟨-, rfl⟩ | ⟨l, code, e, hloads, hlaunch, hrun⟩
  · exact Or.inl rfl
  · have hmoves := World.moves_execute tame (tidy.homes code (Undertaking.mem_codes_of_loads hloads)) l
    rw [hrun, hlaunch.module] at hmoves
    exact Or.inr ⟨(tidy.loads code hloads).1, hmoves⟩

theorem stays_activation (tame : Tame Homely w) (homes : ∀ code, Source.compile false b = .ok code → code.cls.KeepsHomes) :
    Stays settings b.name w (activation settings b w).2 := by
  obtain ⟨e, hrun⟩ | ⟨code, l, hcode, hmodule, hname, hfile, hrun⟩ := activation_cases settings b w
  · rw [hrun]
    exact Or.inl rfl
  · rw [hrun, Stays, ← hmodule]
    exact Or.inr ⟨(dotless_of_compile hcode).1, World.moves_execute tame (homes code hcode) l⟩

/-- Whatever comes of a call, it keeps to the module of its name. -/
theorem Course.stays (h : Course settings name p u p' r) (tame : Tame Homely p.world) (tidy : Tidy name u) :
    Stays settings name p.world p'.world := by
  cases h with
  | stopped defines leads retains lines => exact leads.stays tame tidy
  | @loaded l code id loads launch free run composites lines =>
    have hmoves := World.moves_execute tame (tidy.homes code (Undertaking.mem_codes_of_loads loads)) l
    rw [run, launch.module] at hmoves
    exact Or.inr ⟨(tidy.loads _ loads).1, hmoves⟩
  | defined defines named leads free run lines retains composites =>
    have hleads := leads.stays tame tidy
    have hactivation : Stays settings _ _ _ := stays_activation (hleads.tame tame)
      fun code hcode => tidy.homes code (Undertaking.mem_codes_of_defines defines hcode)
    rw [run, named] at hactivation
    exact hleads.trans hactivation

/-- A class that is returned stands in the module of the name that was asked for, and its lines are those of its file. -/
theorem Course.housed (h : Course settings name p u p' (.ok id)) (tame : Tame Homely p.world) (tidy : Tidy name u) :
    '.' ∉ name.toList ∧ p.composites.has name = false ∧ p'.composites = p.composites.put name id ∧
      ∃ file, Housed p'.world name id (settings.moduleName name) file ∧
        ∀ other ≠ file, p'.lines.get? other = p.lines.get? other := by
  cases h with
  | @loaded l code id loads launch free run composites lines =>
    obtain ⟨hdotless, hknows⟩ := tidy.loads code loads
    have hasked : code.cls.name = l.name := by
      rcases hknows with hcls | himports
      · rw [hcls, launch.name]
      · rcases World.knows_of_execute run launch.seed with hcls | ⟨i, hi, heq⟩
        · exact hcls
        · rw [launch.name] at heq
          exact absurd heq (himports i hi)
    have hhoused := World.housed_of_execute tame (tidy.homes code (Undertaking.mem_codes_of_loads loads)) hasked run
    rw [launch.name, launch.module] at hhoused
    refine ⟨hdotless, free, ?_, _, hhoused, fun _ _ => by rw [lines]⟩
    rw [composites, hhoused.called]
  | @defined b w r defines named leads free run lines retains composites =>
    have tame' := (leads.stays tame tidy).tame tame
    obtain ⟨e, hrun⟩ | ⟨code, l, hcode, hmodule, hname, hfile, hrun⟩ := activation_cases settings b w
    · rw [hrun] at run
      cases run
    · rw [hrun] at run
      obtain ⟨hdotless, hcls⟩ := dotless_of_compile hcode
      have hhoused := World.housed_of_execute tame' (tidy.homes code (Undertaking.mem_codes_of_defines defines hcode)) (hcls.trans hname.symm) run
      rw [hname, hmodule, hfile, named] at hhoused
      refine ⟨named ▸ hdotless, free, ?_, _, hhoused, fun other hne => ?_⟩
      · rw [composites id rfl, hhoused.called]
      · rw [lines]
        cases b.print? with
        | none => rfl
        | some text => exact Entries.get?_put_of_ne _ _ hne

/-- Where nothing is undertaken, the world is as it was. -/
theorem Course.world_of_idle (h : Course settings name p u p' r) (hloads : u.loads = none) (hdefines : u.defines = none) :
    p'.world = p.world := by
  cases h with
  | stopped defines leads retains lines =>
    rcases leads with ⟨-, hworld⟩ | ⟨l, code, e, hcode, -⟩
    · exact hworld
    · rw [hloads] at hcode
      cases hcode
  | loaded loads launch free run composites lines =>
    rw [hloads] at loads
    cases loads
  | defined defines named leads free run lines retains composites =>
    rw [hdefines] at defines
    cases defines

/-! ## Runs -/

/--
A session all of whose composites stand in modules of their own, made for them in a run that started with some lines; what
lines there are besides those of the composites were there at the start or were left by calls that failed.
-/
structure Housing (start : Entries String) (made abandoned : List String) (p : Session) : Prop where
  tame : Tame Homely p.world
  nodup : p.composites.keys.Nodup
  housed : ∀ e ∈ p.composites, '.' ∉ e.1.toList ∧ ∃ settings : Settings, settings.moduleName e.1 ∈ made ∧
    ∃ file, Housed p.world e.1 e.2 (settings.moduleName e.1) file
  occupied : ∀ module ∈ made, ∃ e ∈ p.composites, ∃ file, Housed p.world e.1 e.2 module file
  lines : ∀ file, p.lines.has file = true → start.has file = true ∨ (∃ module ∈ abandoned, file = fileName module) ∨
    ∃ e ∈ p.composites, ∃ module, Housed p.world e.1 e.2 module file

variable {start : Entries String} {before left : List String} {calls : List Call}

/-- No call moves a composite out of its module. -/
theorem Housing.stays (h : Housing start before left p) (hname : c.name? = some name)
    (hcourse : Course settings name p (c.undertakes p) p' r) (tidy : Tidy name (c.undertakes p)) {e : String × Nat}
    (he : e ∈ p.composites) (housed : Housed p.world e.1 e.2 module file) : Housed p'.world e.1 e.2 module file := by
  cases htaken : c.isTaken p with
  | true =>
    have hidle : c.undertakes p = {} := by simp only [Call.undertakes, htaken, if_true]
    rw [hcourse.world_of_idle (by rw [hidle]) (by rw [hidle])]
    exact housed
  | false =>
    rcases hcourse.stays h.tame tidy with hworld | ⟨hdotless, hmoves⟩
    · rw [hworld]
      exact housed
    · obtain ⟨hdotless', settings', -, file', housed'⟩ := h.housed e he
      have hmodule : module = settings'.moduleName e.1 := by rw [← housed.lives, housed'.lives]
      have hne : e.1 ≠ name := by
        rintro rfl
        have hfree : p.composites.has e.1 = false := by
          rw [Call.isTaken, hname] at htaken
          exact htaken
        rw [← Bool.not_eq_true, Entries.has_iff_mem_keys] at hfree
        exact hfree (List.mem_map_of_mem he)
      exact housed.moves hmoves (hmodule ▸ moduleName_ne hdotless' hdotless hne)

/-- A call that fails leaves the composites in their modules. -/
theorem Housing.failed (h : Housing start before left p) (hname : c.name? = some name) (tidy : Tidy name (c.undertakes p))
    {e : Failure} (hfailed : (c.run p).1 = .error e) (hmodule : c.module? = some module) :
    Housing start (before ++ p.madeBy c) (left ++ p.abandonedBy c) (p.next c) := by
  have hmade : p.madeBy c = [] := by rw [madeBy, hfailed]; rfl
  obtain ⟨settings, name', hname', rfl, hcourse⟩ := course_of_failed hmodule hfailed
  rw [hname] at hname'
  cases hname'
  have hkept : ∀ {e : String × Nat} {module file : String}, e ∈ p.composites → Housed p.world e.1 e.2 module file →
      Housed _ e.1 e.2 module file := fun he housed => h.stays hname hcourse tidy he housed
  have hcomposites := hcourse.retains.composites
  rw [hmade, List.append_nil]
  refine ⟨(hcourse.stays h.tame tidy).tame h.tame, hcomposites ▸ h.nodup, ?_, ?_, ?_⟩
  · intro e he
    rw [hcomposites] at he
    obtain ⟨hdotless, settings', hmem, file, housed⟩ := h.housed e he
    exact ⟨hdotless, settings', hmem, file, hkept he housed⟩
  · intro module hmem
    obtain ⟨e, he, file, housed⟩ := h.occupied module hmem
    exact ⟨e, hcomposites ▸ he, file, hkept he housed⟩
  · intro file hfile
    have hold : p.lines.has file = true → start.has file = true ∨
        (∃ module ∈ left ++ p.abandonedBy c, file = fileName module) ∨
          ∃ e ∈ (p.next c).composites, ∃ module, Housed (p.next c).world e.1 e.2 module file := by
      intro hfile
      rcases h.lines file hfile with hstart | ⟨module, hmem, heq⟩ | ⟨e, he, module, housed⟩
      · exact Or.inl hstart
      · exact Or.inr (Or.inl ⟨module, List.mem_append_left _ hmem, heq⟩)
      · exact Or.inr (Or.inr ⟨e, hcomposites ▸ he, module, hkept he housed⟩)
    rw [hcourse.lines] at hfile
    cases hcompiles : (c.undertakes p).compiles? with
    | none =>
      rw [hcompiles] at hfile
      exact hold hfile
    | some text =>
      rw [hcompiles] at hfile
      by_cases hnew : file = fileName (settings.moduleName name)
      · refine Or.inr (Or.inl ⟨settings.moduleName name, List.mem_append_right _ ?_, hnew⟩)
        rw [abandonedBy, hfailed, hcompiles, hmodule]
        exact List.mem_cons_self
      · refine hold ?_
        rw [Entries.has] at hfile ⊢
        rwa [Option.map_some, Option.getD_some, Entries.get?_put_of_ne _ _ hnew] at hfile

/-- A call that returns a class adds it in a module of its own. -/
theorem Housing.returned (h : Housing start before left p) (hname : c.name? = some name) (tidy : Tidy name (c.undertakes p))
    (hreturned : (c.run p).1 = .ok (some id)) :
    Housing start (before ++ p.madeBy c) (left ++ p.abandonedBy c) (p.next c) := by
  obtain ⟨settings, name', hname', hmodule, hcourse⟩ := course_of_returned hreturned
  rw [hname] at hname'
  cases hname'
  have hmade : p.madeBy c = [settings.moduleName name] := by rw [madeBy, hreturned, hmodule]; rfl
  have hleft : p.abandonedBy c = [] := by rw [abandonedBy, hreturned]; rfl
  have hkept : ∀ {e : String × Nat} {module file : String}, e ∈ p.composites → Housed p.world e.1 e.2 module file →
      Housed _ e.1 e.2 module file := fun he housed => h.stays hname hcourse tidy he housed
  obtain ⟨hdotless, hfree, hcomposites, file, housed, hlines⟩ := hcourse.housed h.tame tidy
  have hmem : ∀ e, e ∈ (p.next c).composites ↔ e ∈ p.composites ∨ e = (name, id) := by
    intro e
    have hnew : name ∉ p.composites.keys := by rwa [← Bool.not_eq_true, Entries.has_iff_mem_keys] at hfree
    rw [hcomposites, Entries.put_of_not_mem hnew]
    simp
  rw [hmade, hleft, List.append_nil]
  refine ⟨(hcourse.stays h.tame tidy).tame h.tame, ?_, ?_, ?_, ?_⟩
  · rw [hcomposites]
    exact Entries.nodup_keys_put h.nodup _ _
  · intro e he
    rcases (hmem e).1 he with he | rfl
    · obtain ⟨hdotless', settings', hmade', file', housed'⟩ := h.housed e he
      exact ⟨hdotless', settings', List.mem_append_left _ hmade', file', hkept he housed'⟩
    · exact ⟨hdotless, settings, List.mem_append_right _ List.mem_cons_self, file, housed⟩
  · intro module hmodule
    rcases List.mem_append.1 hmodule with hold | hnew
    · obtain ⟨e, he, file', housed'⟩ := h.occupied module hold
      exact ⟨e, (hmem e).2 (Or.inl he), file', hkept he housed'⟩
    · rw [List.mem_singleton.1 hnew]
      exact ⟨(name, id), (hmem _).2 (Or.inr rfl), file, housed⟩
  · intro other hother
    by_cases hnew : other = file
    · rw [hnew]
      exact Or.inr (Or.inr ⟨(name, id), (hmem _).2 (Or.inr rfl), _, housed⟩)
    · rw [Entries.has, hlines other hnew] at hother
      rcases h.lines other hother with hstart | ⟨module, hmem', heq⟩ | ⟨e, he, module, housed'⟩
      · exact Or.inl hstart
      · exact Or.inr (Or.inl ⟨module, hmem', heq⟩)
      · exact Or.inr (Or.inr ⟨e, (hmem e).2 (Or.inl he), module, hkept he housed'⟩)

theorem Housing.step (h : Housing start before left p) (hname : c.name? = some name) (tidy : Tidy name (c.undertakes p)) :
    Housing start (before ++ p.madeBy c) (left ++ p.abandonedBy c) (p.next c) := by
  have hclear : c ≠ .clear := by
    rintro rfl
    cases hname
  rcases (settles_run (p := p) hclear).2 with ⟨e, hfailed, -⟩ | ⟨id, hreturned⟩
  · obtain ⟨module, hmodule⟩ : ∃ module, c.module? = some module := by
      cases c with
      | clear => cases hname
      | _ => exact ⟨_, rfl⟩
    exact h.failed hname tidy hfailed hmodule
  · exact h.returned hname tidy (congrArg Prod.fst hreturned)

/-- In a run of calls that keep to their modules, the composites do as well. -/
theorem Housing.after (h : Housing start before left p) (tidy : TidyRun p calls) :
    Housing start (before ++ p.made calls) (left ++ p.abandoned calls) (p.after calls) := by
  induction calls generalizing p before left with
  | nil =>
    rw [Session.made, Session.abandoned, List.append_nil, List.append_nil]
    exact h
  | cons c calls ih =>
    obtain ⟨⟨name, hname, hfirst⟩, hrest⟩ := tidy
    have hrun := ih (h.step hname hfirst) hrest
    rw [List.append_assoc, List.append_assoc] at hrun
    exact hrun

/-! ## The clear -/

/-- To forget a class that stands in its module is to unload the module and to drop the lines of its file. -/
theorem runFrom_forget_housed (h : Housed p.world name id module file) : (forget id).runFrom p =
    (.ok ⟨⟩, { p with world := p.world.withoutModule module, lines := p.lines.erase file }) := by
  obtain ⟨k, m, hk, hm, hget, hfile⟩ := h.loaded
  unfold forget
  rw [Act.runFrom_bind, Act.runFrom_get]
  dsimp only
  rw [h.lives, hk, Option.bind_some, hm]
  dsimp only
  rw [h.called, hget]
  dsimp only
  rw [if_pos BEq.rfl, hfile]
  rfl

theorem Housed.withoutModule {other : String} (h : Housed w name id module file) (hne : module ≠ other) :
    Housed (w.withoutModule other) name id module file := by
  obtain ⟨k, m, hk, hm, hname, hfile⟩ := h.loaded
  refine ⟨h.known, h.called, h.lives, k, m, ?_, hm, hname, hfile⟩
  rw [← hk]
  exact Entries.get?_erase_of_ne _ hne

theorem Housed.file_unique {module' file' : String} (h : Housed w name id module file)
    (h' : Housed w name id module' file') : file = file' := by
  obtain ⟨k, m, hk, hm, -, hfile⟩ := h.loaded
  obtain ⟨k', m', hk', hm', -, hfile'⟩ := h'.loaded
  rw [← h'.lives, h.lives, hk] at hk'
  cases hk'
  rw [hm] at hm'
  cases hm'
  rw [hfile] at hfile'
  exact Option.some.inj hfile'

/-- Classes that stand in different modules are forgotten one after another, each with its module and its lines. -/
theorem runFrom_forgets_housed {es : Entries Nat} (housed : ∀ e ∈ es, ∃ module file, Housed p.world e.1 e.2 module file)
    (apart : es.Pairwise fun d e => (p.world.cls d.2).home ≠ (p.world.cls e.2).home) : ∃ loaded lines,
      (es.forM fun e => forget e.2).runFrom p = (.ok ⟨⟩, { p with world := { p.world with loaded }, lines }) ∧
        (∀ module, loaded.get? module =
          if module ∈ es.map fun e => (p.world.cls e.2).home then none else p.world.loaded.get? module) ∧
        ∀ file text, lines.get? file = some text →
          p.lines.get? file = some text ∧ ∀ e ∈ es, ∀ module, ¬Housed p.world e.1 e.2 module file := by
  induction es generalizing p with
  | nil => exact ⟨p.world.loaded, p.lines, rfl, fun _ => rfl, fun _ _ h => ⟨h, fun _ he => by cases he⟩⟩
  | cons e es ih =>
    obtain ⟨module, file, hfirst⟩ := housed e List.mem_cons_self
    obtain ⟨hne, hpairwise⟩ := List.pairwise_cons.1 apart
    have hother : ∀ d ∈ es, ∀ module' file', Housed p.world d.1 d.2 module' file' →
        Housed (p.world.withoutModule module) d.1 d.2 module' file' := by
      intro d hd module' file' hhoused
      refine Housed.withoutModule hhoused ?_
      rw [← hhoused.lives, ← hfirst.lives]
      exact (hne d hd).symm
    obtain ⟨loaded, lines, hrest, hloaded, hlines⟩ :=
      ih (p := { p with world := p.world.withoutModule module, lines := p.lines.erase file })
        (fun d hd => by
          obtain ⟨module', file', hhoused⟩ := housed d (List.mem_cons_of_mem _ hd)
          exact ⟨module', file', hother d hd _ _ hhoused⟩)
        hpairwise
    refine ⟨loaded, lines, ?_, fun name => ?_, fun other text hget => ?_⟩
    · have hcons : ((e :: es).forM fun e => forget e.2) = (forget e.2 >>= fun _ => es.forM fun e => forget e.2) := rfl
      rw [hcons, Act.runFrom_bind, runFrom_forget_housed hfirst]
      exact hrest
    · have hcls : ∀ d : Nat, World.cls (p.world.withoutModule module) d = p.world.cls d := fun _ => rfl
      rw [hloaded name]
      simp only [hcls, hfirst.lives, List.map_cons, List.mem_cons]
      by_cases hname : name = module
      · have hgone : (p.world.withoutModule module).loaded.get? module = none := Entries.get?_erase_self _ _
        simp only [hname, true_or, if_true, hgone, ite_self]
      · have hsame : (p.world.withoutModule module).loaded.get? name = p.world.loaded.get? name :=
          Entries.get?_erase_of_ne _ hname
        simp only [hname, false_or, hsame]
    · obtain ⟨hold, hrest'⟩ := hlines other text hget
      have hne' : other ≠ file := by
        rintro rfl
        rw [Entries.get?_erase_self] at hold
        cases hold
      refine ⟨(Entries.get?_erase_of_ne _ hne').symm.trans hold, fun d hd module' hhoused => ?_⟩
      rcases List.mem_cons.1 hd with rfl | hd
      · exact hne' (Housed.file_unique hhoused hfirst)
      · exact hrest' d hd module' (hother d hd _ _ hhoused)

/--
After a run of calls that keep to their modules, from a session without composites, a clear succeeds. It unloads the modules
that were made for the classes that the run returned, and no others, and every line that it leaves was there at the start or
was left by a call that failed.
-/
theorem clear_unloads (tame : Tame Homely p.world) (empty : p.composites = []) (tidy : TidyRun p calls) :
    (Call.clear.run (p.after calls)).1 = .ok none ∧ ((p.after calls).next .clear).composites = [] ∧
      (∀ module, ((p.after calls).next .clear).world.loaded.get? module =
        if module ∈ p.made calls then none else (p.after calls).world.loaded.get? module) ∧
      ∀ file text, ((p.after calls).next .clear).lines.get? file = some text →
        (p.after calls).lines.get? file = some text ∧
          (p.lines.has file = true ∨ ∃ module ∈ p.abandoned calls, file = fileName module) := by
  have hstart : Housing p.lines [] [] p := by
    refine ⟨tame, ?_, ?_, ?_, ?_⟩
    · rw [empty]
      exact List.nodup_nil
    · intro e he
      rw [empty] at he
      cases he
    · intro module hmodule
      cases hmodule
    · intro file hfile
      exact Or.inl hfile
  have h := hstart.after tidy
  rw [List.nil_append, List.nil_append] at h
  generalize p.after calls = s at h
  have hhoused : ∀ e ∈ s.composites, ∃ module file, Housed s.world e.1 e.2 module file := by
    intro e he
    obtain ⟨-, settings, -, file, housed⟩ := h.housed e he
    exact ⟨_, file, housed⟩
  have hapart : s.composites.Pairwise fun d e => (s.world.cls d.2).home ≠ (s.world.cls e.2).home := by
    refine (List.pairwise_map.1 h.nodup).imp_of_mem fun {d e} hd he hne => ?_
    obtain ⟨hdotless, settings, -, file, housed⟩ := h.housed d hd
    obtain ⟨hdotless', settings', -, file', housed'⟩ := h.housed e he
    rw [housed.lives, housed'.lives]
    exact moduleName_ne hdotless hdotless' hne
  obtain ⟨loaded, lines, hforgets, hloaded, hlines⟩ := runFrom_forgets_housed hhoused hapart
  have hclear : clear.runFrom s = (.ok ⟨⟩, { s with world := { s.world with loaded }, lines, composites := [] }) := by
    unfold clear
    rw [Act.runFrom_bind, Act.runFrom_get]
    dsimp only
    rw [Act.runFrom_bind, hforgets]
    rfl
  have hrun : Call.clear.run s = (.ok none, { s with world := { s.world with loaded }, lines, composites := [] }) := by
    simp only [Call.run, hclear]
    rfl
  unfold next
  rw [hrun]
  refine ⟨rfl, rfl, fun module => ?_, fun file text hget => ?_⟩
  · have hmade : (module ∈ s.composites.map fun e => (s.world.cls e.2).home) ↔ module ∈ p.made calls := by
      constructor
      · intro hmem
        obtain ⟨e, he, rfl⟩ := List.mem_map.1 hmem
        obtain ⟨-, settings, hmade, file, housed⟩ := h.housed e he
        rw [housed.lives]
        exact hmade
      · intro hmem
        obtain ⟨e, he, file, housed⟩ := h.occupied module hmem
        exact List.mem_map.2 ⟨e, he, housed.lives⟩
    show loaded.get? module = _
    rw [hloaded module]
    simp only [hmade]
  · obtain ⟨hold, hnone⟩ := hlines file text hget
    refine ⟨hold, ?_⟩
    rcases h.lines file (by rw [Entries.has, hold]; rfl) with hstart | habandoned | ⟨e, he, module, housed⟩
    · exact Or.inl hstart
    · exact Or.inr habandoned
    · exact absurd housed (hnone e he module)

theorem clear_unloads_shop : (Call.clear.run (shop.after [mixing, caching])).1 = .ok none ∧
    shop.made [mixing, caching] = ["class_mixer_generated.Sale", "class_mixer_generated.Deal"] ∧
    ∀ module, ((shop.after [mixing, caching]).next .clear).world.loaded.get? module =
      if module ∈ ["class_mixer_generated.Sale", "class_mixer_generated.Deal"] then none
      else (shop.after [mixing, caching]).world.loaded.get? module := by
  have hsets : ∀ f ∈ shop.world.functions.toList, f.sets = [] := by decide +kernel
  have tame : Tame Homely shop.world := by
    refine ⟨by decide, by decide, fun f hf name hname => ?_⟩
    rw [hsets f (Array.mem_toList_iff.2 hf)] at hname
    cases hname
  have tidy : TidyRun shop [mixing, caching] := by
    refine ⟨?_, ?_, trivial⟩
    · decide +kernel
    · decide +kernel
  have hmade : shop.made [mixing, caching] = ["class_mixer_generated.Sale", "class_mixer_generated.Deal"] := by
    decide +kernel
  obtain ⟨hcleared, -, hloaded, -⟩ := clear_unloads tame rfl tidy
  rw [hmade] at hloaded
  exact ⟨hcleared, hmade, hloaded⟩

end Session

end Amalgam
