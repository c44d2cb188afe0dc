import Amalgam.Files
import Amalgam.Proofs.Outcome

/-!
# Reading back what is written

A path leads to the same place whether directories are made along it or walked through, so a file that is read where one
was just written holds what was written (`Files.file?_write`). An attempt to write makes directories and perhaps the one
file, and touches nothing else, also if it fails half-way (`Files.spares_attempt`).
-/

namespace Amalgam

namespace Path

/-- Where parts lead from a directory. -/
def follow (p : Path) (parts : List String) : Path :=
  parts.foldl (fun p part => if part == ".." then p.parent else { p with parts := p.parts ++ [part] }) p

theorem parts_join_parent {here p : Path} (h : p.parts ≠ []) :
    (here.join p).parts = (here.join p.parent).parts ++ [p.name] := by
  have hlast : p.parts = p.parts.dropLast ++ [p.name] := by
    rw [name, List.getLast?_eq_some_getLast h, Option.getD_some, List.dropLast_concat_getLast h]
  unfold join isAbsolute parent
  dsimp only
  split
  · exact hlast
  · dsimp only
    rw [List.append_assoc, ← hlast]

end Path

namespace Files

theorem walk_eq_some {fs : Files} {p q : Path} {parts : List String} (h : fs.walk p parts = some q) : q = p.follow parts := by
  induction parts generalizing p with
  | nil => exact (Option.some.inj h).symm
  | cons part rest ih =>
    rw [walk] at h
    split at h
    · cases h
    · rw [Path.follow, List.foldl_cons]
      split at h
      · rename_i hup
        rw [if_pos hup]
        exact ih h
      · rename_i hdown
        rw [if_neg hdown]
        exact ih h

/-! ## Directories on the way -/

/-- Files that nothing has happened to but that directories were made. -/
structure Adds (fs fs' : Files) : Prop where
  here : fs'.here = fs.here
  node? : ∀ q, fs'.node? q = fs.node? q ∨ fs.node? q = none ∧ fs'.node? q = some .directory

theorem Adds.refl (fs : Files) : fs.Adds fs := ⟨rfl, fun _ => Or.inl rfl⟩

theorem Adds.trans {fs fs' fs'' : Files} (h : fs.Adds fs') (h' : fs'.Adds fs'') : fs.Adds fs'' := by
  refine ⟨h'.here.trans h.here, fun q => ?_⟩
  rcases h.node? q with hsame | ⟨hnone, hmade⟩
  · rw [← hsame]
    exact h'.node? q
  · refine Or.inr ⟨hnone, ?_⟩
    rcases h'.node? q with hsame | ⟨hnone', -⟩
    · exact hsame.trans hmade
    · rw [hmade] at hnone'
      cases hnone'

theorem node?_put_self (fs : Files) {p q : Path} (h : q.text = p.text) (n : Node) : (fs.put p n).node? q = some n := by
  rw [node?, put, h, Entries.get?_put_self]

theorem node?_put_of_ne (fs : Files) {p q : Path} (h : q.text ≠ p.text) (n : Node) : (fs.put p n).node? q = fs.node? q := by
  unfold node? put
  rw [Entries.get?_put_of_ne _ _ h]

theorem adds_put {fs : Files} {p : Path} (h : fs.node? p = none) : fs.Adds (fs.put p .directory) := by
  refine ⟨rfl, fun q => ?_⟩
  by_cases hq : q.text = p.text
  · rw [node?_put_self fs hq]
    have hnone : fs.nodes.get? q.text = none := by
      unfold node? at h
      rw [hq]
      split at h
      · cases h
      · assumption
    unfold node?
    rw [hnone]
    dsimp only
    split
    · exact Or.inl rfl
    · exact Or.inr ⟨rfl, rfl⟩
  · exact Or.inl (node?_put_of_ne fs hq .directory)

/-- To go along parts makes directories only, and leads where the parts lead. -/
theorem makeAlong_spec (fs : Files) (p : Path) (parts : List String) :
    fs.Adds (fs.makeAlong p parts).1 ∧ ∀ q, (fs.makeAlong p parts).2 = some q → q = p.follow parts := by
  induction parts generalizing fs p with
  | nil => exact ⟨Adds.refl fs, fun q h => (Option.some.inj h).symm⟩
  | cons part rest ih =>
    rw [makeAlong, Path.follow, List.foldl_cons]
    by_cases hup : (part == "..") = true
    · rw [if_pos hup, if_pos hup]
      exact ih fs p.parent
    · rw [if_neg hup, if_neg hup]
      dsimp only
      cases hnode : fs.node? { p with parts := p.parts ++ [part] } with
      | none => exact ⟨(adds_put hnode).trans (ih _ _).1, (ih _ _).2⟩
      | some n =>
        cases n with
        | directory => exact ih fs _
        | file body => exact ⟨Adds.refl fs, fun q h => nomatch h⟩

theorem makeDirectory_spec (fs : Files) (p : Path) : fs.Adds (fs.makeDirectory p).1 ∧
    ∀ q, (fs.makeDirectory p).2 = .ok q → q = Path.follow ⟨"/", []⟩ (fs.here.join p).parts := by
  obtain ⟨hadds, hleads⟩ := makeAlong_spec fs ⟨"/", []⟩ (fs.here.join p).parts
  unfold makeDirectory
  generalize fs.makeAlong ⟨"/", []⟩ (fs.here.join p).parts = done at hadds hleads
  obtain ⟨made, got⟩ := done
  cases got with
  | none => exact ⟨hadds, fun q h => nomatch h⟩
  | some full => exact ⟨hadds, fun q h => hleads q (congrArg some (Except.ok.inj h))⟩

/-! ## Writing -/

/-- Where a path leads if nothing is in the way. -/
def place (fs : Files) (p : Path) : Path := Path.follow ⟨"/", []⟩ (fs.here.join p).parts

/-- An attempt to write makes directories and, if nothing is in its way, the file at the place where its path leads. -/
theorem attempt_spec (fs : Files) (p : Path) (body : FileBody) :
    (∀ fault, (fs.attempt p body).2 = some fault → fs.Adds (fs.attempt p body).1) ∧
      ((fs.attempt p body).2 = none →
        ∃ made, fs.Adds made ∧ (fs.attempt p body).1 = made.put (fs.place p) (.file body)) := by
  obtain ⟨hadds, hleads⟩ := makeDirectory_spec fs p.parent
  unfold attempt
  by_cases hparts : p.parts.isEmpty = true
  · rw [if_pos hparts]
    exact ⟨fun _ _ => Adds.refl fs, fun h => nomatch h⟩
  · rw [if_neg hparts]
    generalize fs.makeDirectory p.parent = done at hadds hleads
    obtain ⟨made, got⟩ := done
    cases got with
    | error fault => exact ⟨fun _ _ => hadds, fun h => nomatch h⟩
    | ok parent =>
      have htarget : (if p.name == ".." then parent.parent else { parent with parts := parent.parts ++ [p.name] } : Path) =
          fs.place p := by
        rw [place, Path.parts_join_parent (by simpa using hparts), Path.follow, List.foldl_concat, hleads parent rfl]
        rfl
      dsimp only
      rw [htarget]
      by_cases hdirectory : made.isDirectory (fs.place p) = true
      · rw [if_pos hdirectory]
        exact ⟨fun _ _ => hadds, fun h => nomatch h⟩
      · rw [if_neg hdirectory]
        exact ⟨fun _ h => (nomatch h), fun _ => ⟨made, hadds, rfl⟩⟩

theorem write_eq_ok_iff {fs fs' : Files} {p : Path} {body : FileBody} :
    fs.write p body = .ok fs' ↔ fs.attempt p body = (fs', none) := by
  unfold write
  generalize fs.attempt p body = done
  obtain ⟨written, fault⟩ := done
  cases fault with
  | none => exact ⟨fun h => by cases h; rfl, fun h => by cases h; rfl⟩
  | some fault => exact ⟨fun h => (by cases h), fun h => (by cases h)⟩

/-- A file is written to where its path leads. -/
theorem write_eq_ok {fs fs' : Files} {p : Path} {body : FileBody} (h : fs.write p body = .ok fs') :
    ∃ made, fs.Adds made ∧ fs' = made.put (fs.place p) (.file body) := by
  rw [write_eq_ok_iff] at h
  obtain ⟨made, hadds, hput⟩ := (attempt_spec fs p body).2 (by rw [h])
  exact ⟨made, hadds, by rw [← hput, h]⟩

/-- Whatever file is read where one was written holds what was written. -/
theorem file?_write {fs fs' : Files} {p : Path} {body body' : FileBody} (h : fs.write p body = .ok fs')
    (hread : fs'.file? p = some body') : body' = body := by
  obtain ⟨made, hadds, rfl⟩ := write_eq_ok h
  unfold file? find? locate at hread
  cases hwalk : (made.put (fs.place p) (.file body)).walk ⟨"/", []⟩ (made.here.join p).parts with
  | none =>
    rw [show (made.put (fs.place p) (.file body)).here = made.here from rfl, hwalk] at hread
    cases hread
  | some q =>
    rw [show (made.put (fs.place p) (.file body)).here = made.here from rfl, hwalk, Option.bind_some,
      walk_eq_some hwalk, hadds.here, ← place, node?_put_self made rfl] at hread
    exact (Option.some.inj hread).symm

/-- Files that are as before but for one place and directories that were made. -/
structure Spares (fs : Files) (place : Path) (fs' : Files) : Prop where
  here : fs'.here = fs.here
  node? : ∀ q : Path, q.text ≠ place.text → fs'.node? q = fs.node? q ∨ fs.node? q = none ∧ fs'.node? q = some .directory

theorem Spares.refl (fs : Files) (place : Path) : fs.Spares place fs := ⟨rfl, fun _ _ => Or.inl rfl⟩

/-- An attempt to write touches no other file. -/
theorem spares_attempt (fs : Files) (p : Path) (body : FileBody) : fs.Spares (fs.place p) (fs.attempt p body).1 := by
  obtain ⟨hfails, hsucceeds⟩ := attempt_spec fs p body
  cases hfault : (fs.attempt p body).2 with
  | some fault => exact ⟨(hfails fault hfault).here, fun q _ => (hfails fault hfault).node? q⟩
  | none =>
    obtain ⟨made, hadds, hput⟩ := hsucceeds hfault
    rw [hput]
    refine ⟨hadds.here, fun q hq => ?_⟩
    rw [node?_put_of_ne made hq]
    exact hadds.node? q

/-- A file that cannot be written leaves directories at most. -/
theorem adds_of_write_eq_error {fs : Files} {p : Path} {body : FileBody} {fault : WriteFault}
    (h : fs.write p body = .error fault) : fs.Adds (fs.attempt p body).1 := by
  cases hfault : (fs.attempt p body).2 with
  | some fault' => exact (attempt_spec fs p body).1 fault' hfault
  | none =>
    have hok : fs.write p body = .ok (fs.attempt p body).1 := write_eq_ok_iff.2 (Prod.ext rfl hfault)
    rw [hok] at h
    cases h

end Files

end Amalgam
