import Amalgam.Proofs.Session.Registry
import Amalgam.Proofs.Session.Seed
import Amalgam.Proofs.World.Importing

/-!
# Artifacts and running composites

Where every symbol of a composite can be imported, the imports of its artifact bind the very names to the very objects that
are bound for it without a file (`Session.runImports_of_seedFrom`). The class that the artifact gives is then not to be told
from the class that is activated (`Session.loading_agrees`), and a session that was cleared has it again from the same
artifact, without a plan (`Session.reuse_agrees`).
-/

namespace Amalgam.Session

open World (uses)

variable {settings : Settings} {b : Blueprint} {w : World}

/-- A symbol can be imported, to the object that the composite knows for it; its names are identifiers. -/
structure Importable (w : World) (b : Blueprint) (path : String) (r : SymbolRef) : Prop where
  importable : r.importable = true
  home : Text.isDottedIdentifier r.home = true
  qualname : Text.isDottedIdentifier r.qualname = true
  object : ∃ v, w.importSymbol r = .ok v ∧ valueAt w b path r = .ok v

/-- Source code can import a symbol from another module: no part of its name is a reserved word or has another form. -/
structure Writable (settings : Settings) (b : Blueprint) (r : SymbolRef) : Prop where
  abroad : r.home ≠ settings.moduleName b.name
  unreserved : ∀ part ∈ Text.splitOnChar '.' r.home ++ Text.splitOnChar '.' r.qualname, Text.isReserved part = false
  composed : Text.isComposed r.home = true ∧ Text.isComposed r.qualname = true

/-- Two outcomes of defining a class that nothing tells apart: the same class, with the same bases, fields and methods, and
whatever is done with it comes to the same. -/
structure Agree (r r' : Except Failure Nat × World) : Prop where
  outcome : r'.1 = r.1
  classes : r'.2.classes = r.2.classes
  functions : r'.2.functions = r.2.functions
  uses : ∀ us, (uses us r'.2).1 = (uses us r.2).1 ∧ (uses us r'.2).2.trace = (uses us r.2).2.trace

theorem agree_of_alike {r r' : Except Failure Nat × World} (houtcome : r'.1 = r.1) (alike : r.2.Alike r'.2) :
    Agree r r' := by
  refine ⟨houtcome, ?_, ?_, fun us => ?_⟩
  · obtain ⟨ms, loaded, -, hworld⟩ := alike
    rw [hworld]
    rfl
  · obtain ⟨ms, loaded, -, hworld⟩ := alike
    rw [hworld]
    rfl
  · obtain ⟨hresults, ms, loaded, -, hworld⟩ := World.uses_alike alike us
    exact ⟨hresults, by rw [hworld]; rfl⟩

/-! ## The names in place -/

theorem isFreeName_parts {path : String} {r : SymbolRef} (importable : Importable w b path r)
    (writable : Writable settings b r) :
    (∀ part ∈ Text.splitOnChar '.' r.home, Text.isFreeName part = true) ∧
      ∀ part ∈ Text.splitOnChar '.' r.qualname, Text.isFreeName part = true := by
  have hfree : ∀ part, Text.isIdentifier part = true → Text.isReserved part = false → Text.isFreeName part = true := by
    intro part hidentifier hreserved
    rw [Text.isFreeName, hidentifier, hreserved]
    rfl
  refine ⟨fun part hpart => ?_, fun part hpart => ?_⟩
  · exact hfree part (List.all_eq_true.1 importable.home part hpart)
      (writable.unreserved part (List.mem_append_left _ hpart))
  · exact hfree part (List.all_eq_true.1 importable.qualname part hpart)
      (writable.unreserved part (List.mem_append_right _ hpart))

theorem isIdentifier_name {path : String} {r : SymbolRef} (importable : Importable w b path r) :
    Text.isIdentifier r.name = true := by
  have hall : ∀ part ∈ Text.splitOnChar '.' r.qualname, Text.isIdentifier part = true :=
    List.all_eq_true.1 importable.qualname
  unfold SymbolRef.name
  cases hparts : Text.splitOnChar '.' r.qualname with
  | nil =>
    rw [Text.splitOnChar_eq] at hparts
    cases hparts
  | cons part rest =>
    rw [hparts] at hall
    rw [List.getLast?_eq_some_getLast (List.cons_ne_nil part rest), Option.getD_some]
    exact hall _ (List.getLast_mem _)

/-- The import of such a symbol can be written. -/
theorem importOf_eq_ok (built : b.IsBuilt) {e : String × SymbolRef} (he : e ∈ b.symbols)
    (importable : Importable w b e.1 e.2) (writable : Writable settings b e.2) {name : String}
    (hname : b.aliases.get? e.1 = some name) :
    Source.importOf b e.1 e.2 = .ok (Source.importLine e.2 name) := by
  obtain ⟨hhome, hqualname⟩ := isFreeName_parts importable writable
  rw [Source.importOf_eq hname, if_pos importable.importable, if_pos]
  exact Source.isReadable_importLine hhome hqualname (built.isFreeName_alias he hname (isIdentifier_name importable))

/-- The names of symbols are bound one after another, by imports as without them. -/
theorem runImports_of_seedFrom (built : b.IsBuilt) {symbols : List (String × SymbolRef)}
    (hsymbols : ∀ e ∈ symbols, e ∈ b.symbols)
    (importable : ∀ e ∈ symbols, Importable w b e.1 e.2) (writable : ∀ e ∈ symbols, Writable settings b e.2)
    {m : Module} (hm : m.name = settings.moduleName b.name) : ∃ names imports, seedFrom w b m.names symbols = .ok names ∧
      (symbols.mapM fun e => Source.importOf b e.1 e.2) = .ok imports ∧ w.runImports m imports = .ok { m with names } := by
  induction symbols generalizing m with
  | nil => exact ⟨m.names, [], rfl, rfl, rfl⟩
  | cons e rest ih =>
    obtain ⟨path, r⟩ := e
    have himportable := importable _ List.mem_cons_self
    have hwritable := writable _ List.mem_cons_self
    have hmem := hsymbols _ List.mem_cons_self
    obtain ⟨name, hname⟩ := built.aliased hmem
    obtain ⟨v, himport, hv⟩ := himportable.object
    obtain ⟨names, imports, hseed, himports, hrun⟩ := @ih (fun e he => hsymbols e (List.mem_cons_of_mem _ he))
      (fun e he => importable e (List.mem_cons_of_mem _ he)) (fun e he => writable e (List.mem_cons_of_mem _ he))
      { m with names := m.names.put name v } hm
    refine ⟨names, Source.importLine r name :: imports, ?_, ?_, ?_⟩
    · rw [seedFrom_cons, hv]
      exact Outcome.bind_eq_ok.2 ⟨v, rfl, Outcome.bind_eq_ok.2 ⟨name, Source.aliasOf_eq_ok.2 hname, hseed⟩⟩
    · have hline := importOf_eq_ok built hmem himportable hwritable hname
      exact Outcome.mapM_eq_ok.2 (.cons hline (Outcome.mapM_eq_ok.1 himports))
    · have habroad : r.home ≠ m.name := hm ▸ hwritable.abroad
      have hparts := (isFreeName_parts himportable hwritable).2
      have hline := World.importedBy_importLine himport habroad hparts hwritable.composed name
      exact Outcome.bind_eq_ok.2 ⟨v, hline, hrun⟩

/-! ## The class -/

/-- There is an artifact wherever there is code at all, with the same class in it. -/
theorem compile_of_importable (built : b.IsBuilt) (importable : ∀ e ∈ b.symbols, Importable w b e.1 e.2)
    (writable : ∀ e ∈ b.symbols, Writable settings b e.2) {code : Source.Code} (h : Source.compile false b = .ok code) :
    ∃ imports, Source.compile true b = .ok { isArtifact := true, imports, cls := code.cls } := by
  obtain ⟨imports, himports⟩ := Outcome.exists_mapM_eq_ok (f := fun e : String × SymbolRef => Source.importOf b e.1 e.2)
    fun e (he : e ∈ b.symbols) => by
      obtain ⟨name, hname⟩ := built.aliased he
      exact ⟨_, importOf_eq_ok built he (importable e he) (writable e he) hname⟩
  refine ⟨imports, ?_⟩
  rw [Source.compile_artifact (Source.classOf_of_compile h), himports]
  rfl

/-- The imports of an artifact bind the names that are bound without a file. -/
theorem runImports_of_seed (built : b.IsBuilt) (importable : ∀ e ∈ b.symbols, Importable w b e.1 e.2)
    (writable : ∀ e ∈ b.symbols, Writable settings b e.2) : ∃ names, seed w b = .ok names ∧
      (∀ e ∈ b.symbols, ∃ name v, b.aliases.get? e.1 = some name ∧ w.importSymbol e.2 = .ok v ∧ names.get? name = some v) ∧
      ∀ code path, Source.compile true b = .ok code →
        w.runImports (fromFile settings path b.name).start code.imports =
          .ok { (fromFile settings path b.name).start with names } := by
  have hbound : ∀ path, ∃ names imports, seed w b = .ok names ∧
      (b.symbols.mapM fun e => Source.importOf b e.1 e.2) = .ok imports ∧
        w.runImports (fromFile settings path b.name).start imports =
          .ok { (fromFile settings path b.name).start with names } :=
    fun path => @runImports_of_seedFrom settings b w built b.symbols (fun _ he => he) importable writable
      (fromFile settings path b.name).start rfl
  obtain ⟨names, -, hseed, -, -⟩ := hbound ⟨"", []⟩
  refine ⟨names, hseed, fun e he => ?_, fun code path hcode => ?_⟩
  · obtain ⟨name, v, hname, hv, hget⟩ := (seedFrom_eq_ok hseed built.distinct built.injective).1 e he
    obtain ⟨v', himport, hv'⟩ := (importable e he).object
    rw [hv] at hv'
    cases hv'
    exact ⟨name, v, hname, himport, hget⟩
  · obtain ⟨names', imports, hseed', himports, hrun⟩ := hbound path
    rw [hseed] at hseed'
    cases hseed'
    rw [Source.compile_artifact (Source.classOf_of_compile hcode), himports] at hcode
    have hsame : imports = code.imports := congrArg Source.Code.imports (Except.ok.inj hcode)
    rw [← hsame]
    exact hrun

/-- An artifact is loaded as its composite is activated, also in a world where other modules are loaded. -/
theorem loading_agrees (built : b.IsBuilt) {w' : World} (alike : w.Alike w') (hseed : seed w' b = seed w b)
    (importable : ∀ e ∈ b.symbols, Importable w' b e.1 e.2) (writable : ∀ e ∈ b.symbols, Writable settings b e.2)
    {code : Source.Code} (hcode : Source.compile true b = .ok code) {path : Path} {fs : Files}
    (hfile : fs.file? path = some (.code code)) : Agree (activation settings b w) (loading settings path b.name fs w') := by
  obtain ⟨names, hnames, -, hrun⟩ := runImports_of_seed built importable writable
  rw [hseed] at hnames
  rw [activation, Source.compile_inProcess (Source.classOf_of_compile hcode), hnames, loading, hfile]
  obtain ⟨houtcome, halike⟩ := World.execute_alike alike (l := inProcess settings b names)
    (c := { isArtifact := false, cls := code.cls }) rfl (hrun code path hcode) rfl rfl rfl rfl
  exact agree_of_alike houtcome halike

/-! ## The class again -/

theorem seedFrom_congr {w' : World} {done : Entries Value} {symbols : List (String × SymbolRef)}
    (h : ∀ e ∈ symbols, valueAt w' b e.1 e.2 = valueAt w b e.1 e.2) :
    seedFrom w' b done symbols = seedFrom w b done symbols := by
  induction symbols generalizing done with
  | nil => rfl
  | cons e rest ih =>
    obtain ⟨path, r⟩ := e
    rw [seedFrom_cons, seedFrom_cons, h _ List.mem_cons_self]
    simp only [ih fun e he => h e (List.mem_cons_of_mem _ he)]

/-- What can be imported can still be imported where the same modules are there, and its own is still loaded. -/
theorem Importable.reloaded {path : String} {r : SymbolRef} (importable : Importable w b path r) {loaded : Entries Nat}
    (hloaded : loaded.get? r.home = w.loaded.get? r.home) :
    Importable (w.reloaded w.modules loaded) b path r ∧
      valueAt (w.reloaded w.modules loaded) b path r = valueAt w b path r := by
  obtain ⟨v, himport, hv⟩ := importable.object
  have himport' := World.importSymbol_reloaded himport hloaded fun _ _ _ => rfl
  have hsame : valueAt (w.reloaded w.modules loaded) b path r = valueAt w b path r := by
    unfold valueAt
    rw [himport', himport]
  exact ⟨⟨importable.importable, importable.home, importable.qualname, v, himport', hsame.trans hv⟩, hsame⟩

/-- In a session that was cleared, an artifact that is there gives the class that activating would have given before. -/
theorem reuse_agrees {p p' : Session} (built : b.IsBuilt) (importable : ∀ e ∈ b.symbols, Importable p.world b e.1 e.2)
    (writable : ∀ e ∈ b.symbols, Writable settings b e.2) {code : Source.Code} (hcode : Source.compile true b = .ok code)
    (origin : Origin) (binds : Bool) {a : ArtifactRequest} (hname : a.request.name = b.name) (hrewrites : a.rewrites = false)
    (hfile : p.files.file? (p.artifact settings a) = some (.code code)) (hclear : Session.clear.runFrom p = (.ok ⟨⟩, p'))
    (hhomes : ∀ e ∈ b.symbols, ∀ c ∈ p.composites, (p.world.cls c.2).home ≠ e.2.home) :
    seed p'.world b = seed p.world b ∧ ∀ id w, activation settings b p.world = (.ok id, w) →
      ∃ p'', (activateFromCache origin settings binds a).runFrom p' = (.ok id, p'') ∧ Agree (.ok id, w) (.ok id, p''.world) ∧
        p''.notices = p'.notices ++ [.loaded b.name (p.artifact settings a).text] := by
  obtain ⟨result, loaded, lines, composites, hrun, hloaded, hempty, -⟩ := runFrom_clear 0 p
  rw [hrun] at hclear
  cases hclear
  cases hempty rfl
  have hstill := fun e he => (importable e he).reloaded (hloaded e.2.home (hhomes e he))
  have hseed : seed (p.world.reloaded p.world.modules loaded) b = seed p.world b :=
    seedFrom_congr fun e he => (hstill e he).2
  refine ⟨hseed, fun id w hactivation => ?_⟩
  have hagree := loading_agrees built ⟨p.world.modules, loaded, fun _ => rfl, rfl⟩ hseed (fun e he => (hstill e he).1)
    writable hcode hfile
  generalize hp' : ({ p with world := { p.world with loaded }, lines, composites := [] } : Session) = p'
  have hreuses : p'.reuses settings a = true := by
    rw [← hp']
    show (!a.rewrites && (p.files.file? (p.artifact settings a)).isSome) = true
    rw [hrewrites, hfile]
    rfl
  have hload : loading settings (p'.artifact settings a) b.name p'.files p'.world =
      loading settings (p.artifact settings a) b.name p.files (p.world.reloaded p.world.modules loaded) := by
    rw [← hp']
    rfl
  rw [runFrom_activateFromCache_reuse origin settings binds p' a (by rw [← hp']; rfl) hreuses, hname, hload]
  rw [hactivation] at hagree
  generalize loading settings (p.artifact settings a) b.name p.files (p.world.reloaded p.world.modules loaded) = r at hagree
  obtain ⟨r, u⟩ := r
  cases hagree.outcome
  refine ⟨_, rfl, hagree, ?_⟩
  rw [← hp']
  rfl

/-- Whether a symbol is a class that can be imported, and the one that the composite knows. -/
def isImportable (w : World) (b : Blueprint) (path : String) (r : SymbolRef) : Bool :=
  r.importable && Text.isDottedIdentifier r.home && Text.isDottedIdentifier r.qualname &&
    match w.importSymbol r, valueAt w b path r with
    | .ok (.cls id), .ok (.cls known) => id == known
    | _, _ => false

theorem importable_of_isImportable {path : String} {r : SymbolRef} (h : isImportable w b path r = true) :
    Importable w b path r := by
  unfold isImportable at h
  simp only [Bool.and_eq_true] at h
  obtain ⟨⟨⟨himportable, hhome⟩, hqualname⟩, hobject⟩ := h
  split at hobject
  · rename_i id known himport hvalue
    rw [eq_of_beq hobject] at himport
    exact ⟨himportable, hhome, hqualname, _, himport, hvalue⟩
  · cases hobject

/-- Whether no part of the name of a symbol keeps source code from importing it. -/
def isWritable (settings : Settings) (b : Blueprint) (r : SymbolRef) : Bool :=
  r.home != settings.moduleName b.name &&
    (Text.splitOnChar '.' r.home ++ Text.splitOnChar '.' r.qualname).all (fun part => !Text.isReserved part) &&
    Text.isComposed r.home && Text.isComposed r.qualname

theorem writable_of_isWritable {r : SymbolRef} (h : isWritable settings b r = true) : Writable settings b r := by
  unfold isWritable at h
  simp only [Bool.and_eq_true, List.all_eq_true, Bool.not_eq_true', bne_iff_ne, ne_eq] at h
  exact ⟨h.1.1.1, h.1.1.2, h.1.2, h.2⟩

/-- Composites are made in modules of a short name. -/
def making : Settings := { modulePrefix := "made" }

/-- A composite of the class alone. -/
def plainSale (home : String) : Request where
  name := "Sale"
  base := .live 7 ⟨home, "Cart"⟩

/-- The symbols of a composite can all be imported, and yet no artifact of it gets past its imports. -/
def Disagrees (home : String) : Prop :=
  ∃ b, (planned .live making (plainSale home) (shopIn home).world).1 = .ok b ∧
    (∀ e ∈ b.symbols, Importable (shopIn home).world b e.1 e.2) ∧ (∃ names, seed (shopIn home).world b = .ok names) ∧
    ∀ code m, Source.compile true b = .ok code →
      (shopIn home).world.runImports (fromFile making ⟨"", ["sale.py"]⟩ b.name).start code.imports ≠ .ok m

/-- Whether the imports of an artifact fail where those of the running composite do not. -/
def disagrees (w : World) (planned : Except Failure Blueprint) : Bool :=
  match planned with
  | .error _ => false
  | .ok b =>
    b.symbols.all (fun e => isImportable w b e.1 e.2) && (seed w b).toOption.isSome &&
      match Source.compile true b with
      | .error _ => true
      | .ok code => (w.runImports (fromFile making ⟨"", ["sale.py"]⟩ b.name).start code.imports).toOption.isNone

theorem disagrees_of_check {home : String}
    (h : disagrees (shopIn home).world (planned .live making (plainSale home) (shopIn home).world).1 = true) :
    Disagrees home := by
  unfold disagrees at h
  split at h
  · cases h
  · rename_i b hplanned
    simp only [Bool.and_eq_true, List.all_eq_true] at h
    obtain ⟨⟨himportable, hseed⟩, hfails⟩ := h
    refine ⟨b, hplanned, fun e he => importable_of_isImportable (himportable e he), Outcome.exists_eq_ok_of_isSome hseed, ?_⟩
    intro code m hcode hrun
    rw [hcode] at hfails
    dsimp only at hfails
    rw [hrun] at hfails
    cases hfails

/-- A composite of a composite. -/
def resale : Request where
  name := "Resale"
  base := .text "made.Sale:Sale"

def selling : Call := .mix .live making false (plainSale "shop")

def reselling : Call := .cache .live making false { path := ⟨"", ["resale.py"]⟩, request := resale }

/-- What the calls of a run come to. -/
def outcomes : Session → List Call → List (Except Failure (Option Nat))
  | _, [] => []
  | p, c :: rest =>
    let (r, p') := c.run p
    r :: outcomes p' rest

/-- A composite is planned all of whose symbols can be imported by source. -/
def IsSound (r : Except Failure Blueprint) (w : World) : Prop :=
  ∃ b, r = .ok b ∧ ∀ e ∈ b.symbols, Importable w b e.1 e.2 ∧ Writable making b e.2

def isSound (r : Except Failure Blueprint) (w : World) : Bool :=
  match r with
  | .error _ => false
  | .ok b => b.symbols.all fun e => isImportable w b e.1 e.2 && isWritable making b e.2

theorem isSound_of_check {r : Except Failure Blueprint} (h : isSound r w = true) : IsSound r w := by
  unfold isSound at h
  split at h
  · cases h
  · rename_i b
    simp only [List.all_eq_true, Bool.and_eq_true] at h
    exact ⟨b, rfl, fun e he => ⟨importable_of_isImportable (h e he).1, writable_of_isWritable (h e he).2⟩⟩

end Amalgam.Session
