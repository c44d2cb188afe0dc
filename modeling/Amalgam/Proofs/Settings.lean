import Amalgam.Proofs.Outcome
import Amalgam.Settings

/-!
# Where a setting is taken from

Settings are loaded from the nearest project file of a chain of directories, the caller's values and the defaults. Each one is
the caller's if there is one, else the file's, else the default (`Settings.Chosen`). `Settings.load_iff` says what is loaded, and
where that is not so: a prefix of the caller that counts as false is passed over, and a file that is no text stops everything.
-/

namespace Amalgam

namespace Check

variable {α β : Type}

theorem both_eq_ok {x : Checked α} {y : Checked β} {a : α} {b : β} : both x y = .ok (a, b) ↔ x = .ok a ∧ y = .ok b := by
  cases x <;> cases y <;> simp [both]

theorem text_eq_ok {place : List Step} {d : Document} {t : String} : text place d = .ok t ↔ d = .str t := by
  cases d <;> simp [text, fail]

/-- What one of two parts complains of, both complain of. -/
theorem both_eq_error_right {x : Checked α} {y : Checked β} {cs : List Complaint} (h : y = .error cs) :
    ∃ before, both x y = .error (before ++ cs) := by
  subst h
  cases x with
  | ok a => exact ⟨[], rfl⟩
  | error before => exact ⟨before, rfl⟩

end Check

namespace Settings

open Check

variable {fs : Files} {o : Overrides} {start : Path} {chain : List Path} {found : Option (Path × FileBody)}

/-! ## The nearest project file -/

/-- The first of a chain of directories that has a project file, with what the file holds. -/
inductive Nearest (fs : Files) : List Path → Option (Path × FileBody) → Prop where
  | here {dir : Path} {chain : List Path} {body : FileBody} (file : fs.file? (dir.join projectFile) = some body) :
    Nearest fs (dir :: chain) (some (dir, body))
  | above {dir : Path} {chain : List Path} {found : Option (Path × FileBody)} (silent : fs.file? (dir.join projectFile) = none)
    (rest : Nearest fs chain found) : Nearest fs (dir :: chain) found
  | nowhere : Nearest fs [] none

theorem nearest_findSome? (fs : Files) (chain : List Path) :
    Nearest fs chain (chain.findSome? fun dir => (fs.file? (dir.join projectFile)).map (dir, ·)) := by
  induction chain with
  | nil => exact .nowhere
  | cons dir chain ih =>
    rw [List.findSome?_cons]
    cases hfile : fs.file? (dir.join projectFile) with
    | none => exact .above hfile ih
    | some body => exact .here hfile

theorem Nearest.unique {other : Option (Path × FileBody)} (h : Nearest fs chain found) (h' : Nearest fs chain other) :
    found = other := by
  induction h with
  | here file =>
    cases h' with
    | here file' => rw [Option.some.inj (file.symm.trans file')]
    | above silent _ => cases file.symm.trans silent
  | above silent _ ih =>
    cases h' with
    | here file => cases silent.symm.trans file
    | above _ rest => exact ih rest
  | nowhere =>
    cases h'
    rfl

theorem Nearest.eq_nearest? (h : Nearest fs start.upwards found) : nearest? fs start = found :=
  (nearest_findSome? fs start.upwards).unique h

/-! ## What it says -/

/-- The settings in a document: the table of a table of a table, where it is told. -/
inductive Tells : Document → Entries Document → Prop where
  | nothing {top : Entries Document} (tool : top.get? "tool" = none) : Tells (.table top) []
  | others {top tools : Entries Document} (tool : top.get? "tool" = some (.table tools)) (own : tools.get? "class_mixer" = none) :
    Tells (.table top) []
  | own {top tools es : Entries Document} (tool : top.get? "tool" = some (.table tools))
    (own : tools.get? "class_mixer" = some (.table es)) : Tells (.table top) es

/-- The settings that the nearest project file offers, and its directory: none without a file, nor if it is malformed. -/
inductive Offers : Option (Path × FileBody) → Entries Document → Option Path → Prop where
  | nowhere : Offers none [] none
  | malformed {dir : Path} {body : FileBody} {text : String} (holds : body.text? = some text)
    (malformed : Document.Toml.read? text = none) : Offers (some (dir, body)) [] none
  | table {dir : Path} {body : FileBody} {text : String} {d : Document} {es : Entries Document} (holds : body.text? = some text)
    (read : Document.Toml.read? text = some d) (tells : Tells d es) : Offers (some (dir, body)) es (some dir)

theorem section?_of_offers {es : Entries Document} {dir : Option Path} (h : Offers found es dir)
    (nearest : Nearest fs start.upwards found) : section? fs start = .ok (.table es, dir) := by
  unfold section?
  rw [nearest.eq_nearest?]
  cases h with
  | nowhere => rfl
  | malformed htext hread =>
    dsimp only
    rw [htext]
    dsimp only
    rw [hread]
  | table htext hread tells =>
    dsimp only
    rw [htext]
    dsimp only
    rw [hread]
    cases tells with
    | nothing tool => simp [entryOf, tool, Entries.get?, bind, Except.bind, pure, Except.pure]
    | others tool own => simp [entryOf, tool, own, bind, Except.bind, pure, Except.pure]
    | own tool own => simp [entryOf, tool, own, bind, Except.bind, pure, Except.pure]

/-! ## Which values count -/

/-- A document that is the text of a prefix, which is what is left of it without the white space around it. -/
def IsPrefix (d : Document) (name : String) : Prop :=
  ∃ text, d = .str text ∧ Text.strip text = name ∧ Text.isDottedIdentifier name = true

/-- The directory that a table names, relative ones seen from the directory of its file. -/
inductive Anchors (es : Entries Document) (dir : Option Path) : Option Path → Prop where
  | absent (absent : es.get? "cache_dir" = none) : Anchors es dir none
  | absolute {text : String} (entry : es.get? "cache_dir" = some (.str text)) (absolute : (Path.ofString text).isAbsolute = true) :
    Anchors es dir (some (Path.ofString text))
  | relative {text : String} {home : Path} (entry : es.get? "cache_dir" = some (.str text))
    (relative : (Path.ofString text).isAbsolute = false) (file : dir = some home) :
    Anchors es dir (some (home.normal (Path.ofString text)))

/-- The prefix that counts: the caller's, else that of the table, else the default. -/
def prefixFor (o : Overrides) (es : Entries Document) : Document :=
  o.modulePrefix.getD ((es.get? "module_prefix").getD (.str ({} : Settings).modulePrefix))

/-- Settings each of which is the caller's if there is one, else that of the table, else the default. -/
structure Chosen (o : Overrides) (es : Entries Document) (dir : Option Path) (s : Settings) : Prop where
  isStrict : (∃ d, o.isStrict = some d ∧ bool [.key "strict_mode"] d = .ok s.isStrict) ∨
    o.isStrict = none ∧ s.isStrict = ((es.get? "strict_mode").map Document.truthy).getD false
  cacheDir : (∃ p, o.cacheDir = some p ∧ s.cacheDir = some p) ∨ o.cacheDir = none ∧ Anchors es dir s.cacheDir
  modulePrefix : IsPrefix (prefixFor o es) s.modulePrefix

/-- What the caller gives but for a prefix that counts as false. -/
def Overrides.counted (o : Overrides) : Overrides := { o with modulePrefix := given o.modulePrefix }

/-- A prefix that is given counts as false. -/
def Overrides.Overlooked (o : Overrides) : Prop := ∃ d, o.modulePrefix = some d ∧ d.truthy = false

theorem checkPrefix_str (place : List Step) (t : String) : checkPrefix place (.str t) =
    if Text.isDottedIdentifier (Text.strip t) = true then .ok (Text.strip t)
    else fail place (.badValue ("Value error, Invalid module prefix: '" ++ Text.strip t ++ "'")) := by
  unfold checkPrefix
  simp only [text, bind, Except.bind, pure, Except.pure]

theorem checkPrefix_eq_ok {place : List Step} {d : Document} {name : String} :
    checkPrefix place d = .ok name ↔ IsPrefix d name := by
  constructor
  · intro h
    obtain ⟨t, ht, -⟩ := Outcome.bind_eq_ok.1 h
    obtain rfl := text_eq_ok.1 ht
    rw [checkPrefix_str] at h
    by_cases hdotted : Text.isDottedIdentifier (Text.strip t) = true
    · rw [if_pos hdotted] at h
      cases h
      exact ⟨t, rfl, rfl, hdotted⟩
    · rw [if_neg hdotted] at h
      cases h
  · rintro ⟨t, rfl, rfl, hdotted⟩
    rw [checkPrefix_str, if_pos hdotted]

/-- What is no prefix is complained of in its place. -/
theorem checkPrefix_eq_error (place : List Step) {d : Document} (h : ∀ name, ¬IsPrefix d name) :
    ∃ m, checkPrefix place d = .error [⟨place, m⟩] := by
  cases d with
  | str t =>
    have hdotted : ¬Text.isDottedIdentifier (Text.strip t) = true := fun hdotted => h _ ⟨t, rfl, rfl, hdotted⟩
    exact ⟨_, by rw [checkPrefix_str, if_neg hdotted, fail]⟩
  | _ => exact ⟨.notText, rfl⟩

section Directory

variable {es : Entries Document} {t : String} {d : Document}

theorem cacheDirOf_absent (h : es.get? "cache_dir" = none) (dir : Option Path) : cacheDirOf (.table es) dir = .ok none := by
  have hhas : seemsToHave (.table es) "cache_dir" = .ok false := by simp [seemsToHave, Entries.has, h]
  unfold cacheDirOf
  rw [hhas]
  rfl

theorem cacheDirOf_str (h : es.get? "cache_dir" = some (.str t)) (home : Path) : cacheDirOf (.table es) (some home) =
    .ok (some (if (Path.ofString t).isAbsolute then Path.ofString t else home.normal (Path.ofString t))) := by
  have hhas : seemsToHave (.table es) "cache_dir" = .ok true := by simp [seemsToHave, Entries.has, h]
  have hget : (Document.table es).get? "cache_dir" = some (.str t) := h
  unfold cacheDirOf
  rw [hhas, hget]
  rfl

theorem cacheDirOf_of_other (h : es.get? "cache_dir" = some d) (hd : ∀ t, d ≠ .str t) (dir : Option Path) :
    cacheDirOf (.table es) dir = .error (.fault .type) := by
  have hhas : seemsToHave (.table es) "cache_dir" = .ok true := by simp [seemsToHave, Entries.has, h]
  have hget : (Document.table es).get? "cache_dir" = some d := h
  unfold cacheDirOf
  rw [hhas, hget]
  cases d with
  | str t => exact absurd rfl (hd t)
  | _ => rfl

/-- A table of a file names a directory exactly if its entry is the text of one. -/
theorem cacheDirOf_eq_ok {dir c : Option Path} (placed : es = [] ∨ dir ≠ none) :
    cacheDirOf (.table es) dir = .ok c ↔ Anchors es dir c := by
  constructor
  · intro h
    cases hentry : es.get? "cache_dir" with
    | none =>
      rw [cacheDirOf_absent hentry] at h
      cases h
      exact .absent hentry
    | some d =>
      obtain ⟨home, rfl⟩ : ∃ home, dir = some home := by
        refine Option.ne_none_iff_exists'.1 (placed.resolve_left ?_)
        rintro rfl
        cases hentry
      by_cases htext : ∃ t, d = .str t
      · obtain ⟨t, rfl⟩ := htext
        rw [cacheDirOf_str hentry] at h
        cases h
        split
        · rename_i habsolute
          exact .absolute hentry habsolute
        · rename_i hrelative
          exact .relative hentry (by simpa using hrelative) rfl
      · rw [cacheDirOf_of_other hentry (not_exists.1 htext)] at h
        cases h
  · intro h
    cases h with
    | absent absent => exact cacheDirOf_absent absent dir
    | absolute entry absolute =>
      obtain ⟨home, rfl⟩ : ∃ home, dir = some home := by
        refine Option.ne_none_iff_exists'.1 (placed.resolve_left ?_)
        rintro rfl
        cases entry
      rw [cacheDirOf_str entry, if_pos absolute]
    | relative entry relative file =>
      subst file
      rw [cacheDirOf_str entry, if_neg (by simp [relative])]

end Directory

/-! ## What is loaded -/

theorem check_values (a p : Document) : check [] (.table [("strict_mode", a), ("module_prefix", p)]) =
    (both (bool [.key "strict_mode"] a) (both (.ok none) (checkPrefix [.key "module_prefix"] p))).map fun r =>
      { isStrict := r.1, cacheDir := r.2.1, modulePrefix := r.2.2 } := by
  unfold check
  simp only [entries, optionalEntry, Entries.get?, bind, Except.bind, pure, Except.pure, Except.map]
  rfl

/-- Settings of values that are checked together, the directory apart. -/
def assemble (strict pre : Document) (cacheDir : Option Path) : Except Failure Settings :=
  ((check [] (.table [("strict_mode", strict), ("module_prefix", pre)])).mapError Failure.complaints).map fun s =>
    { s with cacheDir }

theorem assemble_eq_ok {strict pre : Document} {c : Option Path} {s : Settings} : assemble strict pre c = .ok s ↔
    Check.bool [.key "strict_mode"] strict = .ok s.isStrict ∧ s.cacheDir = c ∧ IsPrefix pre s.modulePrefix := by
  unfold assemble
  rw [check_values]
  constructor
  · intro hs
    obtain ⟨t, ht, rfl⟩ := Outcome.map_eq_ok.1 hs
    obtain ⟨⟨b, unread, name⟩, hr, rfl⟩ := Outcome.map_eq_ok.1 (Outcome.mapError_eq_ok.1 ht)
    obtain ⟨hstrict, hrest⟩ := both_eq_ok.1 hr
    exact ⟨hstrict, rfl, checkPrefix_eq_ok.1 (both_eq_ok.1 hrest).2⟩
  · rintro ⟨hstrict, rfl, hnamed⟩
    have hvalues : both (Check.bool [.key "strict_mode"] strict) (both (.ok none) (checkPrefix [.key "module_prefix"] pre)) =
        .ok (s.isStrict, (none : Option Path), s.modulePrefix) :=
      both_eq_ok.2 ⟨hstrict, both_eq_ok.2 ⟨rfl, checkPrefix_eq_ok.2 hnamed⟩⟩
    rw [hvalues]
    rfl

/-- How strictly plans are read: as the caller says, else as the truth value of what the table says. -/
def strictFor (o : Overrides) (es : Entries Document) : Document :=
  o.isStrict.getD (.bool (((es.get? "strict_mode").map Document.truthy).getD false))

/-- The directory that counts: the caller's, else that of the table. -/
def cacheFor (o : Overrides) (es : Entries Document) (dir : Option Path) : Except Failure (Option Path) :=
  match o.cacheDir with
  | some p => .ok (some p)
  | none => cacheDirOf (.table es) dir

section Table

variable {es : Entries Document} {dir : Option Path} {s : Settings}

theorem bool_strictFor_eq_ok {place : List Step} {b : Bool} : Check.bool place (strictFor o es) = .ok b ↔
    (∃ d, o.isStrict = some d ∧ Check.bool place d = .ok b) ∨
      o.isStrict = none ∧ b = ((es.get? "strict_mode").map Document.truthy).getD false := by
  unfold strictFor
  cases o.isStrict with
  | some d => simp
  | none => simp [Check.bool, eq_comm]

theorem cacheFor_eq_ok {c : Option Path} (placed : es = [] ∨ dir ≠ none) : cacheFor o es dir = .ok c ↔
    (∃ p, o.cacheDir = some p ∧ c = some p) ∨ o.cacheDir = none ∧ Anchors es dir c := by
  unfold cacheFor
  cases o.cacheDir with
  | some p => simp [eq_comm]
  | none => simp [cacheDirOf_eq_ok placed]

variable (h : section? fs (fs.here.normal start) = .ok (.table es, dir))

include h

/-- Loading, where a table is at hand: the directory is looked for first, and then the other values are checked. -/
theorem load_of_section : load fs o start = cacheFor o es dir >>= assemble (strictFor o es) (prefixFor o.counted es) := by
  obtain ⟨strict, cache, pre⟩ := o
  have hentry : ∀ key, entryOf (.table es) key = .ok (es.get? key) := fun _ => rfl
  unfold load strictFor cacheFor prefixFor Overrides.counted
  rw [h]
  cases strict <;> cases cache <;> cases given pre <;>
    simp only [hentry, bind, Except.bind, pure, Except.pure, Option.getD] <;> rfl

/-- What is loaded, a table at hand, is what is chosen of the caller's values that count, those of the table, and the defaults. -/
theorem load_eq_ok_iff (placed : es = [] ∨ dir ≠ none) : load fs o start = .ok s ↔ Chosen o.counted es dir s := by
  rw [load_of_section h, Outcome.bind_eq_ok]
  constructor
  · rintro ⟨c, hc, hs⟩
    obtain ⟨hstrict, rfl, hnamed⟩ := assemble_eq_ok.1 hs
    exact ⟨bool_strictFor_eq_ok.1 hstrict, (cacheFor_eq_ok placed).1 hc, hnamed⟩
  · rintro ⟨strict, cache, pre⟩
    exact ⟨s.cacheDir, (cacheFor_eq_ok placed).2 cache, assemble_eq_ok.2 ⟨bool_strictFor_eq_ok.2 strict, rfl, pre⟩⟩

/-- What counts for a prefix and is none is complained of, whatever else is. -/
theorem load_eq_error (placed : es = [] ∨ dir ≠ none) (readable : o.cacheDir ≠ none ∨ ∃ c, Anchors es dir c)
    (hnamed : ∀ name, ¬IsPrefix (prefixFor o.counted es) name) :
    ∃ cs, load fs o start = .error (.complaints cs) ∧ ∃ c ∈ cs, c.place = [.key "module_prefix"] := by
  obtain ⟨c, hc⟩ : ∃ c, cacheFor o es dir = .ok c := by
    rcases readable with hgiven | ⟨c, hc⟩
    · obtain ⟨p, hp⟩ := Option.ne_none_iff_exists'.1 hgiven
      exact ⟨_, (cacheFor_eq_ok placed).2 (Or.inl ⟨p, hp, rfl⟩)⟩
    · cases hcache : o.cacheDir with
      | some p => exact ⟨_, (cacheFor_eq_ok placed).2 (Or.inl ⟨p, hcache, rfl⟩)⟩
      | none => exact ⟨c, (cacheFor_eq_ok placed).2 (Or.inr ⟨hcache, hc⟩)⟩
  obtain ⟨m, hm⟩ := checkPrefix_eq_error [.key "module_prefix"] hnamed
  obtain ⟨inner, hinner⟩ := both_eq_error_right (x := (.ok none : Checked (Option Path))) hm
  obtain ⟨outer, houter⟩ := both_eq_error_right (x := Check.bool [.key "strict_mode"] (strictFor o es)) hinner
  refine ⟨outer ++ (inner ++ [⟨[.key "module_prefix"], m⟩]), ?_, ⟨[.key "module_prefix"], m⟩, by simp, rfl⟩
  show load fs o start = _
  rw [load_of_section h, hc]
  show assemble _ _ c = _
  rw [assemble, check_values, houter]
  rfl

end Table

/-! ## Files of another form -/

theorem entryOf_of_other {d : Document} (hd : ∀ es, d ≠ .table es) (key : String) : entryOf d key = .error (.fault .attribute) := by
  cases d with
  | table es => exact absurd rfl (hd es)
  | _ => rfl

/-- What has no table has nothing, or cannot be asked. -/
theorem eq_none_of_cacheDirOf {d : Document} (hd : ∀ es, d ≠ .table es) {dir c : Option Path} (h : cacheDirOf d dir = .ok c) :
    c = none := by
  have hget : d.get? "cache_dir" = none := by
    cases d with
    | table es => exact absurd rfl (hd es)
    | _ => rfl
  obtain ⟨has, hhas, h⟩ := Outcome.bind_eq_ok.1 h
  cases has with
  | false =>
    cases h
    rfl
  | true =>
    rw [hget] at h
    cases h

/-- A file that is a text and offers no table has something else in the table's place, or in that of one around it. -/
theorem section?_of_text {dir : Path} {body : FileBody} (nearest : Nearest fs start.upwards (some (dir, body)))
    (holds : body.text? ≠ none) (other : ¬∃ es home, Offers (some (dir, body)) es home) :
    (∃ d, section? fs start = .ok (d, some dir) ∧ ∀ es, d ≠ .table es) ∨ section? fs start = .error (.fault .attribute) := by
  obtain ⟨t, ht⟩ := Option.ne_none_iff_exists'.1 holds
  unfold section?
  rw [nearest.eq_nearest?]
  dsimp only
  rw [ht]
  dsimp only
  cases hread : Document.Toml.read? t with
  | none => exact absurd ⟨_, _, .malformed ht hread⟩ other
  | some d =>
    dsimp only
    by_cases htop : ∃ top, d = .table top
    · obtain ⟨top, rfl⟩ := htop
      cases htool : Entries.get? top "tool" with
      | none => exact absurd ⟨_, _, .table ht hread (.nothing htool)⟩ other
      | some tool =>
        by_cases htools : ∃ tools, tool = .table tools
        · obtain ⟨tools, rfl⟩ := htools
          cases hown : Entries.get? tools "class_mixer" with
          | none => exact absurd ⟨_, _, .table ht hread (.others htool hown)⟩ other
          | some own =>
            refine Or.inl ⟨own, by simp [entryOf, htool, hown, bind, Except.bind, pure, Except.pure], fun es hes => other ⟨es, some dir, ?_⟩⟩
            subst hes
            exact .table ht hread (.own htool hown)
        · right
          show (entryOf (((Entries.get? top "tool").getD (.table []))) "class_mixer" >>= _) = _
          rw [htool, Option.getD_some, entryOf_of_other (not_exists.1 htools)]
          rfl
    · rw [entryOf_of_other (not_exists.1 htop)]
      exact Or.inr rfl

/-- Where the file has something else than a table, at most the caller's values count. -/
theorem load_of_other {d : Document} {dir : Option Path} {s : Settings} (h : section? fs (fs.here.normal start) = .ok (d, dir))
    (hd : ∀ es, d ≠ .table es) (hload : load fs o start = .ok s) :
    o.isStrict ≠ none ∧ given o.modulePrefix ≠ none ∧ Chosen o.counted [] none s := by
  obtain ⟨strict, cache, pre⟩ := o
  have hentry := entryOf_of_other hd
  unfold load at hload
  rw [h] at hload
  cases strict with
  | none =>
    simp only [hentry, bind, Except.bind] at hload
    cases hload
  | some a =>
    obtain ⟨c, hc, hload⟩ : ∃ c, (cache = c ∧ c ≠ none ∨ cache = none ∧ cacheDirOf d dir = .ok c) ∧ ∃ p, given pre = some p ∧ assemble a p c = .ok s := by
      cases cache with
      | some q =>
        refine ⟨some q, Or.inl ⟨rfl, by simp⟩, ?_⟩
        cases hpre : given pre with
        | none =>
          simp only [hentry, hpre, bind, Except.bind, pure, Except.pure] at hload
          cases hload
        | some p =>
          simp only [hpre, bind, Except.bind, pure, Except.pure] at hload
          exact ⟨p, rfl, hload⟩
      | none =>
        cases hc : cacheDirOf d dir with
        | error e =>
          simp only [hc, bind, Except.bind, pure, Except.pure] at hload
          cases hload
        | ok c =>
          refine ⟨c, Or.inr ⟨rfl, rfl⟩, ?_⟩
          cases hpre : given pre with
          | none =>
            simp only [hc, hentry, hpre, bind, Except.bind, pure, Except.pure] at hload
            cases hload
          | some p =>
            simp only [hc, hpre, bind, Except.bind, pure, Except.pure] at hload
            exact ⟨p, rfl, hload⟩
    obtain ⟨p, hpre, hload⟩ := hload
    obtain ⟨hstrict, rfl, hnamed⟩ := assemble_eq_ok.1 hload
    refine ⟨by simp, by simp [hpre], Or.inl ⟨a, rfl, hstrict⟩, ?_, ?_⟩
    · rcases hc with ⟨hgiven, hsome⟩ | ⟨hnone, hc⟩
      · obtain ⟨q, hq⟩ := Option.ne_none_iff_exists'.1 hsome
        exact Or.inl ⟨q, hgiven.trans hq, hq⟩
      · refine Or.inr ⟨hnone, ?_⟩
        rw [eq_none_of_cacheDirOf hd hc]
        exact .absent rfl
    · show IsPrefix ((given pre).getD _) _
      rwa [hpre]

/-- A file that is no text stops everything. -/
theorem load_of_undecodable {dir : Path} {body : FileBody} (nearest : Nearest fs (fs.here.normal start).upwards (some (dir, body)))
    (hbytes : body.text? = none) : load fs o start = .error (.fault .undecodable) := by
  unfold load section?
  rw [nearest.eq_nearest?]
  dsimp only
  rw [hbytes]
  rfl

/-! ## Whether there are settings -/

/-- The nearest project file gives settings: none is there, or none that can be read, or it has a table for them whose directory
and prefix can be understood. -/
def Loads (fs : Files) (start : Path) : Prop :=
  ∃ found es dir, Nearest fs start.upwards found ∧ Offers found es dir ∧ (∃ c, Anchors es dir c) ∧ ∃ name, IsPrefix (prefixFor {} es) name

/-- What a caller says who gives at most a truth value for how strictly plans are read. -/
structure Overrides.IsPlain (o : Overrides) : Prop where
  isStrict : ∀ d, o.isStrict = some d → ∃ b, d = .bool b
  cacheDir : o.cacheDir = none
  modulePrefix : o.modulePrefix = none

/-- Such a caller has settings exactly if the nearest project file gives some. -/
theorem exists_load_iff (plain : o.IsPlain) : (∃ s, load fs o start = .ok s) ↔ Loads fs (fs.here.normal start) := by
  have hcounted : o.counted = o := by
    rw [Overrides.counted, plain.modulePrefix]
    exact congrArg (fun p => { o with modulePrefix := p }) plain.modulePrefix.symm
  have hsame : ∀ es, prefixFor o es = prefixFor {} es := fun es => by
    unfold prefixFor
    rw [plain.modulePrefix]
  constructor
  · rintro ⟨s, hs⟩
    have nearest := nearest_findSome? fs (fs.here.normal start).upwards
    generalize (fs.here.normal start).upwards.findSome? (fun dir => (fs.file? (dir.join projectFile)).map (dir, ·)) = found
      at nearest
    by_cases hoffers : ∃ es dir, Offers found es dir
    · obtain ⟨es, dir, offers⟩ := hoffers
      have placed : es = [] ∨ dir ≠ none := by cases offers <;> simp
      have chosen := (load_eq_ok_iff (section?_of_offers offers nearest) placed).1 hs
      rw [hcounted] at chosen
      obtain ⟨q, hq, -⟩ | ⟨-, hanchors⟩ := chosen.cacheDir
      · cases plain.cacheDir.symm.trans hq
      · exact ⟨found, es, dir, nearest, offers, ⟨_, hanchors⟩, _, hsame es ▸ chosen.modulePrefix⟩
    · -- What is no table is of no use to a caller who gives no prefix.
      exfalso
      cases hfound : found with
      | none => exact hoffers ⟨[], none, hfound ▸ .nowhere⟩
      | some file =>
        obtain ⟨dir, body⟩ := file
        subst hfound
        by_cases htext : body.text? = none
        · rw [load_of_undecodable nearest htext] at hs
          cases hs
        · rcases section?_of_text nearest htext hoffers with ⟨d, hsection, hd⟩ | hsection
          · refine (load_of_other hsection hd hs).2.1 ?_
            rw [plain.modulePrefix]
            rfl
          · unfold load at hs
            rw [hsection] at hs
            cases hs
  · rintro ⟨found, es, dir, nearest, offers, ⟨c, hanchors⟩, name, hnamed⟩
    have placed : es = [] ∨ dir ≠ none := by cases offers <;> simp
    have hstrict : ∃ b, (∃ d, o.isStrict = some d ∧ Check.bool [.key "strict_mode"] d = .ok b) ∨
        o.isStrict = none ∧ b = ((es.get? "strict_mode").map Document.truthy).getD false := by
      cases hgiven : o.isStrict with
      | none => exact ⟨_, Or.inr ⟨rfl, rfl⟩⟩
      | some d =>
        obtain ⟨b, rfl⟩ := plain.isStrict d hgiven
        exact ⟨b, Or.inl ⟨_, rfl, rfl⟩⟩
    obtain ⟨b, hb⟩ := hstrict
    refine ⟨{ isStrict := b, cacheDir := c, modulePrefix := name }, (load_eq_ok_iff (section?_of_offers offers nearest) placed).2 ?_⟩
    rw [hcounted]
    exact ⟨hb, Or.inr ⟨plain.cacheDir, hanchors⟩, (hsame es).symm ▸ hnamed⟩

/-! ## The settings for a directory -/

theorem not_isPrefix_of_falsy {d : Document} (h : d.truthy = false) (name : String) : ¬IsPrefix d name := by
  rintro ⟨t, rfl, rfl, hdotted⟩
  have ht : t = "" := by simpa [Document.truthy] using h
  subst ht
  exact absurd hdotted (by decide +kernel)

/-- Where nothing that is given counts as false, all that is given counts. -/
theorem counted_eq_self (h : ¬o.Overlooked) : o.counted = o := by
  obtain ⟨strict, cache, pre⟩ := o
  cases pre with
  | none => rfl
  | some d =>
    have htruthy : d.truthy = true := by
      rw [← Bool.not_eq_false]
      exact fun hfalsy => h ⟨d, rfl, hfalsy⟩
    simp [Overrides.counted, given, Option.filter, htruthy]

/--
The settings for a directory are told by the nearest project file, whatever the others hold. Where that offers a table (an empty
one without a file, or if it is malformed), what is loaded is what is chosen of the caller's values, the table and the defaults,
but for a prefix of the caller that counts as false: that is passed over, which makes a difference exactly if there are settings
without it. A prefix that counts and is none is complained of. A file that is no text stops everything; and if there is
something else in the place of a table, at most the caller's values count.
-/
theorem load_iff (fs : Files) (o : Overrides) (start : Path) :
    let chain := (fs.here.normal start).upwards
    ∃ found, Nearest fs chain found ∧
      (∀ fs' : Files, fs'.here = fs.here → Nearest fs' chain found → load fs' o start = load fs o start) ∧
      (∀ es dir, Offers found es dir →
        (∀ s, load fs o start = .ok s ↔ Chosen o.counted es dir s) ∧
        ((∀ s, load fs o start = .ok s ↔ Chosen o es dir s) ↔ (o.Overlooked → ∀ s, ¬Chosen o.counted es dir s)) ∧
        ((o.cacheDir ≠ none ∨ ∃ c, Anchors es dir c) → (∀ name, ¬IsPrefix (prefixFor o.counted es) name) →
          ∃ cs, load fs o start = .error (.complaints cs) ∧ ∃ c ∈ cs, c.place = [.key "module_prefix"])) ∧
      ∀ dir body, found = some (dir, body) →
        (body.text? = none → load fs o start = .error (.fault .undecodable)) ∧
        (body.text? ≠ none → (¬∃ es home, Offers found es home) → ∀ s, load fs o start = .ok s →
          o.isStrict ≠ none ∧ given o.modulePrefix ≠ none ∧ Chosen o.counted [] none s) := by
  intro chain
  obtain ⟨found, nearest⟩ : ∃ found, Nearest fs chain found := ⟨_, nearest_findSome? fs chain⟩
  refine ⟨found, nearest, fun fs' hhere nearest' => ?_, fun es dir offers => ?_, fun dir body hfound =>
    ⟨fun hbytes => load_of_undecodable (hfound ▸ nearest) hbytes, ?_⟩⟩
  · have hsame : section? fs' (fs.here.normal start) = section? fs (fs.here.normal start) := by
      unfold section?
      rw [nearest.eq_nearest?, nearest'.eq_nearest?]
    unfold load
    rw [hhere, hsame]
  · have hsection := section?_of_offers offers nearest
    have placed : es = [] ∨ dir ≠ none := by cases offers <;> simp
    have hload : ∀ s, load fs o start = .ok s ↔ Chosen o.counted es dir s := fun s => load_eq_ok_iff hsection placed
    refine ⟨hload, ?_, load_eq_error hsection placed⟩
    by_cases overlooked : o.Overlooked
    · -- What is overlooked is no prefix, so nothing is chosen with it.
      obtain ⟨d, hd, hfalsy⟩ := overlooked
      have hnone : ∀ s, ¬Chosen o es dir s := fun s chosen =>
        not_isPrefix_of_falsy hfalsy s.modulePrefix (by simpa [prefixFor, hd] using chosen.modulePrefix)
      exact ⟨fun h _ s chosen => hnone s ((h s).1 ((hload s).2 chosen)),
        fun h s => ⟨fun hs => absurd ((hload s).1 hs) (h ⟨d, hd, hfalsy⟩ s), fun chosen => absurd chosen (hnone s)⟩⟩
    · rw [counted_eq_self overlooked] at hload
      exact ⟨fun _ h => absurd h overlooked, fun _ => hload⟩
  · rintro htext other s hs
    subst hfound
    rcases section?_of_text nearest htext other with ⟨d, hsection, hd⟩ | hsection
    · exact load_of_other hsection hd hs
    · unfold load at hs
      rw [hsection] at hs
      cases hs

theorem exists_table_of_get? {d v : Document} {key : String} (h : d.get? key = some v) :
    ∃ es, d = .table es ∧ Entries.get? es key = some v := by
  obtain ⟨es, hes, h⟩ := Option.bind_eq_some_iff.1 h
  cases d <;> cases hes
  exact ⟨es, rfl, h⟩

/-- A directory whose project file holds a body. -/
def desk (body : FileBody) : Files where
  here := ⟨"/", ["shop"]⟩
  nodes := [("/shop/pyproject.toml", .file body)]

/-- A project file that tells a prefix and nothing else. -/
def acme : String := "[tool.class_mixer]\nmodule_prefix = \"acme\"\n"

/-- The empty prefix of a caller is passed over for that of the file, and bytes that are no text stop everything. -/
theorem load_iff_desk :
    (load (desk (.text acme)) { modulePrefix := some (.str "") } ⟨"", []⟩ = .ok { modulePrefix := "acme" } ∧
      ∀ es dir, ¬Chosen { modulePrefix := some (.str "") } es dir { modulePrefix := "acme" }) ∧
    load (desk .bytes) {} ⟨"", []⟩ = .error (.fault .undecodable) := by
  refine ⟨⟨?_, fun es dir chosen => ?_⟩, ?_⟩
  · obtain ⟨found, nearest, -, hoffers, -⟩ := load_iff (desk (.text acme)) { modulePrefix := some (.str "") } ⟨"", []⟩
    have hfound : (nearest? (desk (.text acme)) ((desk (.text acme)).here.normal ⟨"", []⟩)).bind (fun e => e.2.text?) =
      some acme := by decide +kernel
    rw [nearest.eq_nearest?] at hfound
    obtain ⟨⟨dir, body⟩, rfl, hbody⟩ := Option.bind_eq_some_iff.1 hfound
    have hread : ((Document.Toml.read? acme).bind fun d => ((d.get? "tool").bind fun t => t.get? "class_mixer").bind fun own =>
        own.entries?.map fun es => ((es.get? "module_prefix").bind Document.str?, (es.get? "cache_dir").isNone,
          (es.get? "strict_mode").isNone)) = some (some "acme", true, true) := by decide +kernel
    obtain ⟨d, hd, htold⟩ := Option.bind_eq_some_iff.1 hread
    obtain ⟨own, hfrom, hvalues⟩ := Option.bind_eq_some_iff.1 htold
    obtain ⟨tool, htool, hown⟩ := Option.bind_eq_some_iff.1 hfrom
    obtain ⟨es, hes, hvalues⟩ := Option.map_eq_some_iff.1 hvalues
    obtain ⟨hnamed, habsent⟩ := Prod.mk.inj hvalues
    obtain ⟨hcache, hstrict⟩ := Prod.mk.inj habsent
    obtain ⟨p, hp, hstr⟩ := Option.bind_eq_some_iff.1 hnamed
    obtain ⟨top, rfl, htop⟩ := exists_table_of_get? htool
    obtain ⟨tools, rfl, htools⟩ := exists_table_of_get? hown
    cases own <;> cases hes
    cases p <;> cases hstr
    have offers : Offers (some (dir, body)) es (some dir) := .table hbody hd (.own htop htools)
    refine ((hoffers es (some dir) offers).1 { modulePrefix := "acme" }).2 ⟨Or.inr ⟨rfl, ?_⟩, Or.inr ⟨rfl, ?_⟩, "acme", ?_, ?_⟩
    · rw [Option.isNone_iff_eq_none.1 hstrict]
      rfl
    · exact .absent (Option.isNone_iff_eq_none.1 hcache)
    · show (Entries.get? es "module_prefix").getD _ = _
      rw [hp]
      rfl
    · decide +kernel
  · exact not_isPrefix_of_falsy rfl "acme" chosen.modulePrefix
  · obtain ⟨found, nearest, -, -, hother⟩ := load_iff (desk .bytes) {} ⟨"", []⟩
    have hfound : (nearest? (desk .bytes) ((desk .bytes).here.normal ⟨"", []⟩)).map (fun e => e.2.text?.isNone) = some true := by
      decide +kernel
    rw [nearest.eq_nearest?] at hfound
    obtain ⟨⟨dir, body⟩, rfl, hbody⟩ := Option.map_eq_some_iff.1 hfound
    exact (hother dir body rfl).1 (Option.isNone_iff_eq_none.1 hbody)

end Settings

end Amalgam
