import Amalgam.Proofs.Blueprint.Swapping

/-!
# Of the declarations of a field the first one counts

The fields of the contributors are gone through in order of discovery. A declaration that forges a record ends this; of the
others, the first one of each name that is not static is copied (`Fields.merged`), behind the record of the composite.
`Fields.first_declarations_merged` says which fields these are without going through them: each name once, as its first
declaration has it, in the order of the first declarations (`Fields.IsMerge`).
-/

namespace Amalgam.Fields

variable {σ : Type}

/-! ## Records -/

theorem eq_str_of_same {v : Value} {k : String} (h : v.same (.str k) = true) : v = .str k := by
  cases v <;> simp_all [Value.same, Value.number?]

/-- A record is a dict with precisely the keys of records. -/
theorem isMetadata_iff {v : Value} : isMetadata v = true ↔
    ∃ es, v = .dict es ∧ (es.map Prod.fst).Perm (metadataKeys.map Value.str) := by
  cases v with
  | dict es =>
    have hdistinct : (metadataKeys.map Value.str).Nodup := by simp [metadataKeys]
    have hall : (metadataKeys.all fun k => (es.map Prod.fst).any fun v => v.same (.str k)) = true ↔
        metadataKeys.map Value.str ⊆ es.map Prod.fst := by
      simp only [List.all_eq_true, List.any_eq_true, List.subset_def, List.forall_mem_map]
      refine forall₂_congr fun k _ => ⟨?_, fun hk => ⟨_, hk, by simp [Value.same]⟩⟩
      rintro ⟨v, hv, hsame⟩
      exact eq_str_of_same hsame ▸ hv
    simp only [isMetadata, Bool.and_eq_true, beq_iff_eq, hall, Value.dict.injEq, exists_eq_left']
    constructor
    · rintro ⟨hlength, hsub⟩
      refine ((List.subperm_of_subset hdistinct hsub).perm_of_length_le ?_).symm
      simp [hlength]
    · intro hperm
      exact ⟨by simpa using hperm.length_eq, hperm.symm.subset⟩
  | _ => simp [isMetadata]

/-- A text that is a literal dict with precisely the keys of records. -/
def IsRecordText (text : String) : Prop :=
  ∃ es, Literal.read? text = some (.dict es) ∧ (es.map Prod.fst).Perm (metadataKeys.map Value.str)

theorem isMetadataText_iff {default : Option String} :
    isMetadataText default = true ↔ ∃ text ∈ default, IsRecordText text := by
  cases default with
  | none => simp [isMetadataText]
  | some text =>
    cases hread : Literal.read? text with
    | none => simp [isMetadataText, IsRecordText, hread]
    | some v => simp [isMetadataText, IsRecordText, hread, isMetadata_iff]

/-! ## Declarations -/

/-- What contributors declare in order of discovery, each field with its contributor. -/
def declarations (rs : List SymbolRef) (ms : List Manifest) : List (SymbolRef × Field) :=
  (rs.zip ms).flatMap fun e => e.2.fields.map fun f => (e.1, f)

/-- Whether a declaration is one of the reserved field that does not record a composite. -/
def isForged (d : SymbolRef × Field) : Bool := d.2.name == reservedField && !isMetadataText d.2.default

/-- Whether a declaration is one of a name, and of a field that is not static. -/
def gives (name : String) (d : SymbolRef × Field) : Bool := d.2.name == name && !d.2.isStatic

/-- The fields that are copied of declarations, if some names are taken. -/
def merged : (taken : List String) → List (SymbolRef × Field) → List FieldDef
  | _, [] => []
  | taken, d :: rest =>
    if d.2.name == reservedField || d.2.isStatic || taken.contains d.2.name then merged taken rest
    else FieldDef.ofField d.1 d.2 :: merged (taken ++ [d.2.name]) rest

theorem merged_append (taken : List String) (ds ds' : List (SymbolRef × Field)) :
    merged taken (ds ++ ds') = merged taken ds ++ merged (taken ++ (merged taken ds).map FieldDef.name) ds' := by
  induction ds generalizing taken with
  | nil => simp [merged]
  | cons d ds ih =>
    rw [List.cons_append, merged, merged]
    split
    · exact ih taken
    · rw [ih, List.map_cons, List.append_assoc, List.cons_append]
      rfl

theorem added_eq_merged (origin : SymbolRef) (taken : List String) (fields : List Field) :
    added origin taken fields = merged taken (fields.map fun f => (origin, f)) := by
  induction fields generalizing taken with
  | nil => rfl
  | cons f rest ih =>
    rw [added, List.map_cons, merged, ih, ih]

/-- The first forged record ends the collection; where there is none, all declarations are merged. -/
theorem runFrom_addContributors {p : Provider σ} {rs : List SymbolRef} {ms : List Manifest} {s s' : σ}
    (served : (rs.mapM p.manifest).runFrom s = (.ok ms, s')) (done : List FieldDef) :
    ((addContributors p done rs).runFrom s).1 = match (declarations rs ms).find? isForged with
      | some d => .error (.refusal (.reservedField d.1.path))
      | none => .ok (done ++ merged (done.map FieldDef.name) (declarations rs ms)) := by
  induction rs generalizing done ms s with
  | nil =>
    cases served
    simp [addContributors, declarations, merged]
  | cons r rest ih =>
    rw [List.mapM_cons] at served
    obtain ⟨m, t, hm, served⟩ := Act.bind_eq_ok.1 served
    obtain ⟨ms, u, hrest, hcons⟩ := Act.bind_eq_ok.1 served
    cases hcons
    have hrefuses : (m.fields.map fun f => (r, f)).find? isForged = none ↔ refuses m.fields = false := by
      simp [List.find?_eq_none, isForged, refuses]
    have hforger : ∀ d, (m.fields.map fun f => (r, f)).find? isForged = some d → d.1 = r := by
      intro d hd
      obtain ⟨f, -, rfl⟩ := List.mem_map.1 (List.mem_of_find?_eq_some hd)
      rfl
    rw [addContributors, Act.runFrom_bind, hm]
    dsimp only
    have hdeclarations : declarations (r :: rest) (m :: ms) = (m.fields.map fun f => (r, f)) ++ declarations rest ms := rfl
    rw [Act.runFrom_bind, Act.runFrom_ofExcept, addAll_eq, added_eq_merged, hdeclarations, List.find?_append, merged_append]
    cases hfirst : (m.fields.map fun f => (r, f)).find? isForged with
    | some d =>
      have : refuses m.fields = true := by
        rw [← Bool.not_eq_false, ← hrefuses, hfirst]
        exact Option.some_ne_none d
      rw [this, ← hforger d hfirst]
      rfl
    | none =>
      rw [hrefuses.1 hfirst, Option.none_or]
      simp only [Bool.false_eq_true, if_false]
      rw [ih hrest, List.map_append, List.append_assoc]

/-! ## The merge by its laws -/

/-- The fields that are merged of declarations: each name that is given and not reserved, once, as its first declaration has
it, in the order of the first declarations. -/
structure IsMerge (ds : List (SymbolRef × Field)) (fs : List FieldDef) : Prop where
  distinct : (fs.map FieldDef.name).Nodup
  mem : ∀ name, name ∈ fs.map FieldDef.name ↔ name ≠ reservedField ∧ ∃ d ∈ ds, gives name d = true
  first : ∀ f ∈ fs, ∃ d, ds.find? (gives f.name) = some d ∧ f = FieldDef.ofField d.1 d.2
  ordered : fs.Pairwise fun f g => ds.findIdx (gives f.name) < ds.findIdx (gives g.name)

section Merged

variable {taken : List String} {d : SymbolRef × Field} {ds : List (SymbolRef × Field)} {name : String}

theorem gives_iff : gives name d = true ↔ d.2.name = name ∧ d.2.isStatic = false := by
  simp [gives]

/-- A declaration that is passed over gives no name that is still to come. -/
theorem gives_eq_false (hskip : (d.2.name == reservedField || d.2.isStatic || taken.contains d.2.name) = true)
    (hname : name ≠ reservedField) (hfree : name ∉ taken) : gives name d = false := by
  rw [← Bool.not_eq_true, gives_iff]
  rintro ⟨rfl, hstatic⟩
  simp [hname, hstatic, hfree] at hskip

theorem mem_names_merged : name ∈ (merged taken ds).map FieldDef.name ↔
    name ∉ taken ∧ name ≠ reservedField ∧ ∃ d ∈ ds, gives name d = true := by
  induction ds generalizing taken with
  | nil => simp [merged]
  | cons d ds ih =>
    rw [merged, List.exists_mem_cons_iff]
    split
    · rename_i hskip
      rw [ih]
      refine and_congr_right fun hfree => and_congr_right fun hname => ?_
      rw [gives_eq_false hskip hname hfree]
      simp
    · rename_i hkeep
      simp only [Bool.or_eq_true, beq_iff_eq, List.contains_iff_mem, not_or, Bool.not_eq_true] at hkeep
      rw [List.map_cons, List.mem_cons, ih, gives_iff]
      show name = d.2.name ∨ _ ↔ _
      by_cases hname : name = d.2.name
      · subst hname
        simp [hkeep]
      · have : d.2.name ≠ name := fun h => hname h.symm
        simp [hname, this]

/-- What is merged is of a name that is neither taken nor reserved. -/
theorem fresh_of_mem_merged {f : FieldDef} (h : f ∈ merged taken ds) : f.name ∉ taken ∧ f.name ≠ reservedField :=
  have := mem_names_merged.1 (List.mem_map_of_mem h)
  ⟨this.1, this.2.1⟩

theorem nodup_names_merged : ((merged taken ds).map FieldDef.name).Nodup := by
  induction ds generalizing taken with
  | nil => exact List.nodup_nil
  | cons d ds ih =>
    rw [merged]
    split
    · exact ih
    · rw [List.map_cons, List.nodup_cons]
      refine ⟨fun hmem => ?_, ih⟩
      exact (mem_names_merged.1 hmem).1 (List.mem_append_right _ (List.mem_singleton.2 rfl))

/-- A declaration in front changes nothing for the names behind it: it is passed over or of another name. -/
theorem gives_of_mem_tail {f : FieldDef} {taken' : List String} (h : f ∈ merged taken' ds)
    (hd : (d.2.name == reservedField || d.2.isStatic || taken'.contains d.2.name) = true) : gives f.name d = false :=
  gives_eq_false hd (fresh_of_mem_merged h).2 (fresh_of_mem_merged h).1

/-- A name that is taken is not met again. -/
theorem taken_self (taken : List String) (d : SymbolRef × Field) :
    (d.2.name == reservedField || d.2.isStatic || (taken ++ [d.2.name]).contains d.2.name) = true := by
  simp

theorem first_of_mem_merged {f : FieldDef} (h : f ∈ merged taken ds) :
    ∃ d, ds.find? (gives f.name) = some d ∧ f = FieldDef.ofField d.1 d.2 := by
  induction ds generalizing taken with
  | nil => cases h
  | cons d ds ih =>
    rw [merged] at h
    split at h
    · rename_i hskip
      rw [List.find?_cons_of_neg (by simp [gives_of_mem_tail h hskip])]
      exact ih h
    · rename_i hkeep
      rcases List.mem_cons.1 h with rfl | h
      · refine ⟨d, List.find?_cons_of_pos ?_, rfl⟩
        simp only [Bool.or_eq_true, not_or, Bool.not_eq_true] at hkeep
        exact gives_iff.2 ⟨rfl, hkeep.1.2⟩
      · rw [List.find?_cons_of_neg (by simp [gives_of_mem_tail h (taken_self taken d)])]
        exact ih h

theorem findIdx_cons_of_not {q : SymbolRef × Field → Bool} (h : q d = false) :
    (d :: ds).findIdx q = ds.findIdx q + 1 := by
  rw [List.findIdx_cons, h]
  rfl

theorem ordered_merged :
    (merged taken ds).Pairwise fun f g => ds.findIdx (gives f.name) < ds.findIdx (gives g.name) := by
  induction ds generalizing taken with
  | nil => exact List.Pairwise.nil
  | cons d ds ih =>
    have hshift : ∀ taken', (d.2.name == reservedField || d.2.isStatic || taken'.contains d.2.name) = true →
        (merged taken' ds).Pairwise fun f g =>
          (d :: ds).findIdx (gives f.name) < (d :: ds).findIdx (gives g.name) := by
      intro taken' hd
      refine ih.imp_of_mem fun {f g} hf hg hlt => ?_
      rw [findIdx_cons_of_not (gives_of_mem_tail hf hd), findIdx_cons_of_not (gives_of_mem_tail hg hd)]
      exact Nat.succ_lt_succ hlt
    rw [merged]
    split
    · rename_i hskip
      exact hshift taken hskip
    · rename_i hkeep
      refine List.pairwise_cons.2 ⟨fun g hg => ?_, hshift _ (taken_self taken d)⟩
      simp only [Bool.or_eq_true, not_or, Bool.not_eq_true] at hkeep
      have hhere : gives (FieldDef.ofField d.1 d.2).name d = true := gives_iff.2 ⟨rfl, hkeep.1.2⟩
      rw [findIdx_cons_of_not (gives_of_mem_tail hg (taken_self taken d)), List.findIdx_cons, hhere]
      exact Nat.succ_pos _

/-- Behind the record of the composite stand the first declarations. -/
theorem isMerge_merged (ds : List (SymbolRef × Field)) : IsMerge ds (merged [reservedField] ds) where
  distinct := nodup_names_merged
  mem name := by
    rw [mem_names_merged, List.mem_singleton]
    exact ⟨And.right, fun h => ⟨h.1, h⟩⟩
  first _ := first_of_mem_merged
  ordered := ordered_merged

end Merged

/-- A merge has no field that is not the first declaration of its name, and none twice: it is the only one. -/
theorem IsMerge.unique {ds : List (SymbolRef × Field)} {fs gs : List FieldDef} (hf : IsMerge ds fs) (hg : IsMerge ds gs) :
    fs = gs := by
  have hentry : ∀ {fs gs : List FieldDef}, IsMerge ds fs → IsMerge ds gs → fs ⊆ gs := by
    intro fs gs hf hg f hmem
    obtain ⟨g, hgmem, hname⟩ := List.mem_map.1 ((hg.mem f.name).2 ((hf.mem f.name).1 (List.mem_map_of_mem hmem)))
    obtain ⟨d, hd, rfl⟩ := hf.first f hmem
    obtain ⟨d', hd', rfl⟩ := hg.first g hgmem
    rw [hname, hd] at hd'
    cases hd'
    exact hgmem
  have hperm : fs.Perm gs := (List.perm_ext_iff_of_nodup hf.distinct.of_map hg.distinct.of_map).2 fun f =>
    ⟨fun h => hentry hf hg h, fun h => hentry hg hf h⟩
  exact hperm.eq_of_pairwise (fun a b _ _ h h' => absurd h (Nat.lt_asymm h')) hf.ordered hg.ordered

/-- A cart, and a composite that is mixed in: its record is dropped, what it shares with all carts stays behind, and of its
totals none is new. -/
def rebated : List Manifest :=
  [{ ref := ⟨"shop", "Cart"⟩, fields := [{ name := "carts", default := some "0", isStatic := true },
      { name := "total", default := some "0" }] },
    { ref := ⟨"shop", "Rebate"⟩
      fields := [{ name := reservedField, default := some "\x7b'mixins': [], 'base': 'shop:Offer', 'capability_sets': []\x7d" },
        { name := "total", default := some "1" }, { name := "carts", hint := some "int" }, { name := "total" }] }]

end Amalgam.Fields
