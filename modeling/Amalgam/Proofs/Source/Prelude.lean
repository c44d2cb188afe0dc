import Amalgam.Proofs.Blueprint.Built
import Amalgam.Proofs.Outcome
import Amalgam.Proofs.Source.Forwarding
import Amalgam.Proofs.Text.Split

/-!
# The imports of an artifact

An artifact is the class that is run in the process and an import for each symbol (`Source.compile_artifact`). There is none
if a symbol is local; and if the first import that cannot be had is one that cannot be read, the attempt breaks off
(`Source.compile_of_hasUnreadableImport`).
-/

namespace Amalgam.Source

variable {b : Blueprint} {cls : Class}

theorem importOf_eq {path name : String} {r : SymbolRef} (h : b.aliases.get? path = some name) : importOf b path r =
    if r.importable then
      if (importLine r name).isReadable then .ok (importLine r name) else .error (.fault .badStatement)
    else .error (.notImportable path) := by
  unfold importOf
  rw [aliasOf_eq_ok.2 h]
  cases r.importable with
  | false => rfl
  | true =>
    show (do
      readable (importLine r name).isReadable
      return importLine r name : Compiled Import) = _
    unfold readable
    cases (importLine r name).isReadable <;> rfl

/-- Both kinds of code have the same class. -/
theorem classOf_of_compile {isArtifact : Bool} {code : Code} (h : compile isArtifact b = .ok code) :
    classOf b = .ok code.cls := by
  obtain ⟨cls, hcls, h⟩ := Outcome.bind_eq_ok.1 h
  cases isArtifact with
  | false =>
    cases h
    exact hcls
  | true =>
    obtain ⟨imports, -, h⟩ := Outcome.bind_eq_ok.1 h
    cases h
    exact hcls

theorem compile_inProcess (hcls : classOf b = .ok cls) : compile false b = .ok { isArtifact := false, cls } := by
  unfold compile
  rw [hcls]
  rfl

theorem compile_artifact (hcls : classOf b = .ok cls) : compile true b =
    (b.symbols.mapM fun e => importOf b e.1 e.2).map fun imports => { isArtifact := true, imports, cls } := by
  unfold compile
  rw [hcls]
  show (do
    let imports ← b.symbols.mapM fun e => importOf b e.1 e.2
    return { isArtifact := true, imports, cls } : Compiled Code) = _
  cases b.symbols.mapM fun e => importOf b e.1 e.2 <;> rfl

/-- A symbol has an import that cannot be read, and all before it have one that can. -/
def HasUnreadableImport (b : Blueprint) : Prop :=
  ∃ before path r name after, b.symbols = before ++ (path, r) :: after ∧
    (∀ e ∈ before, ∃ line, importOf b e.1 e.2 = .ok line) ∧ r.importable = true ∧ b.aliases.get? path = some name ∧
      (importLine r name).isReadable = false

variable (built : b.IsBuilt) (hcls : classOf b = .ok cls)

include built hcls

/-- What keeps a composite from having an artifact is a local symbol or an import that cannot be read. -/
theorem compile_eq_error {e : Failure} (h : compile true b = .error e) :
    (∃ path, e = .notImportable path) ∨ e = .fault .badStatement ∧ HasUnreadableImport b := by
  have hmap : (b.symbols.mapM fun e => importOf b e.1 e.2) = .error e := by
    rw [compile_artifact hcls] at h
    cases himports : b.symbols.mapM fun e => importOf b e.1 e.2 with
    | error e' =>
      rw [himports] at h
      cases h
      rfl
    | ok imports =>
      rw [himports] at h
      cases h
  obtain ⟨before, ⟨path, r⟩, after, hsymbols, hbefore, hfails⟩ := Outcome.mapM_eq_error.1 hmap
  obtain ⟨name, hname⟩ := built.aliased (e := (path, r)) (by simp [hsymbols])
  rw [importOf_eq hname] at hfails
  split at hfails
  · rename_i himportable
    split at hfails
    · cases hfails
    · rename_i hreadable
      cases hfails
      exact Or.inr ⟨rfl, before, path, r, name, after, hsymbols, hbefore, himportable, hname, by simpa using hreadable⟩
  · cases hfails
    exact Or.inl ⟨path, rfl⟩

omit built in
theorem compile_of_hasUnreadableImport (h : HasUnreadableImport b) : compile true b = .error (.fault .badStatement) := by
  obtain ⟨before, path, r, name, after, hsymbols, hbefore, himportable, hname, hreadable⟩ := h
  have hmap : (b.symbols.mapM fun e => importOf b e.1 e.2) = .error (.fault .badStatement) := by
    refine Outcome.mapM_eq_error.2 ⟨before, (path, r), after, hsymbols, hbefore, ?_⟩
    rw [importOf_eq hname, himportable, hreadable]
    rfl
  rw [compile_artifact hcls, hmap]
  rfl

/-! ## Imports that can be read -/

omit built hcls

/-- A name has no blanks to be left out. -/
theorem trimmed_of_isFreeName {s : String} (h : Text.isFreeName s = true) :
    Text.trimList (fun c => c == ' ' || c == '\t') s.toList = s.toList := by
  rw [Text.isFreeName, Bool.and_eq_true] at h
  have hblank : ∀ c ∈ s.toList, ¬(c == ' ' || c == '\t') = true := by
    intro c hc hblank
    have hname := Text.isNameContinue_of_mem h.1 hc
    simp only [Bool.or_eq_true, beq_iff_eq] at hblank
    rcases hblank with rfl | rfl <;> exact absurd hname (by decide)
  have hdrop : ∀ cs : List Char, (∀ c ∈ cs, ¬(c == ' ' || c == '\t') = true) →
      cs.dropWhile (fun c => c == ' ' || c == '\t') = cs := fun cs hcs =>
    List.dropWhile_eq_self_iff.2 fun hlt => hcs _ (List.getElem_mem hlt)
  rw [Text.trimList, hdrop _ hblank, hdrop _ fun c hc => hblank c (List.mem_reverse.1 hc), List.reverse_reverse]

theorem isDottedName_of_free {s : String} (h : ∀ part ∈ Text.splitOnChar '.' s, Text.isFreeName part = true) :
    isDottedName s = true := by
  refine List.all_eq_true.2 fun part hpart => ?_
  rw [trimmed_of_isFreeName (h part hpart), String.ofList_toList]
  exact h part hpart

/-- Names joined by dots, and no dots before them. -/
theorem isHome_of_free {s : String} (h : ∀ part ∈ Text.splitOnChar '.' s, Text.isFreeName part = true) :
    isHome s = true := by
  have hfirst := h _ (by rw [Text.splitOnChar_eq]; exact List.mem_cons_self)
  cases hchars : s.toList with
  | nil =>
    rw [hchars] at hfirst
    cases hfirst
  | cons c rest =>
    rw [hchars, List.takeWhile_cons] at hfirst
    cases hdot : c != '.' with
    | false =>
      rw [hdot] at hfirst
      cases hfirst
    | true =>
      rw [hdot, if_pos rfl] at hfirst
      have hlead : ¬(c == '.' || c == ' ' || c == '\t') = true := by
        intro hlead
        rw [Text.isFreeName, Bool.and_eq_true] at hfirst
        have hname := Text.isNameContinue_of_mem hfirst.1 (by rw [String.toList_ofList]; exact List.mem_cons_self)
        simp only [Bool.or_eq_true, beq_iff_eq] at hlead
        rcases hlead with (rfl | rfl) | rfl <;> exact absurd hname (by decide)
      have hnames : s.toList.dropWhile (fun c => c == '.' || c == ' ' || c == '\t') = s.toList := by
        rw [hchars]
        exact List.dropWhile_cons_of_neg hlead
      unfold isHome
      dsimp only
      rw [hnames, String.ofList_toList, isDottedName_of_free h, hchars]
      rfl

variable {r : SymbolRef} {name : String}

/-- The parts of a qualified name stand in its import, before the first dot and after it. -/
theorem qualname_importLine (h : ∀ part ∈ Text.splitOnChar '.' r.qualname, Text.isFreeName part = true) :
    isDottedName (importLine r name).head = true ∧
      ((importLine r name).rest.isEmpty = true ∨ isDottedName (importLine r name).rest = true) ∧
      (if (importLine r name).rest.isEmpty then (importLine r name).head
        else (importLine r name).head ++ "." ++ (importLine r name).rest) = r.qualname := by
  rw [Text.splitOnChar_eq, List.forall_mem_cons] at h
  obtain ⟨hfirst, hrest⟩ := h
  have hhead : isDottedName (importLine r name).head = true := by
    refine isDottedName_of_free fun part hpart => ?_
    rw [importLine, Text.splitOnChar_takeWhile, List.mem_singleton] at hpart
    rw [hpart]
    exact hfirst
  have hwhole : r.qualname.toList.takeWhile (· != '.') ++ r.qualname.toList.dropWhile (· != '.') = r.qualname.toList :=
    List.takeWhile_append_dropWhile
  refine ⟨hhead, ?_⟩
  unfold importLine
  cases hafter : r.qualname.toList.dropWhile (· != '.') with
  | nil =>
    rw [hafter, List.append_nil] at hwhole
    refine ⟨Or.inl rfl, ?_⟩
    dsimp only
    rw [hwhole, String.ofList_toList]
    rfl
  | cons dot after =>
    rw [hafter] at hwhole hrest
    have hdot : dot = '.' := by
      have := List.head?_dropWhile_not (· != '.') r.qualname.toList
      rw [hafter] at this
      simpa using this
    have hdotted := isDottedName_of_free hrest
    have hsome : (String.ofList after).isEmpty = false := by
      cases after with
      | nil => exact absurd (hrest "" (List.mem_singleton.2 rfl)) (by decide)
      | cons c cs => simp
    dsimp only
    rw [List.drop_one, List.tail_cons, hsome]
    refine ⟨Or.inr hdotted, ?_⟩
    rw [if_neg Bool.false_ne_true, ← String.toList_inj]
    simp only [String.toList_append, String.toList_ofList, List.append_assoc]
    rw [hdot] at hwhole
    exact hwhole

/-- The import of a symbol can be read, if the names in it are no reserved words. -/
theorem isReadable_importLine (hhome : ∀ part ∈ Text.splitOnChar '.' r.home, Text.isFreeName part = true)
    (hqualname : ∀ part ∈ Text.splitOnChar '.' r.qualname, Text.isFreeName part = true)
    (hname : Text.isFreeName name = true) : (importLine r name).isReadable = true := by
  obtain ⟨hhead, hrest, -⟩ := @qualname_importLine r name hqualname
  have hhome := isHome_of_free hhome
  unfold Import.isReadable
  rw [hhead, show (importLine r name).home = r.home from rfl, hhome, show (importLine r name).boundAs = name from rfl, hname,
    Bool.true_and, Bool.true_and, Bool.true_and, Bool.or_eq_true]
  exact hrest

end Amalgam.Source
