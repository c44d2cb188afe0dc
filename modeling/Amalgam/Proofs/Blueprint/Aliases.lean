import Amalgam.Proofs.Blueprint.Symbols

/-!
# Names of symbols

Names are given by two loops: one over the symbols, and one over the numbered names of a symbol. Nothing bounds the second but the
names taken, so both are stated here without a bound (`Alias.Probes`, `Alias.Names`) and shown to end with what `Alias.assign` gives.
The names are apart, none is to be avoided, and a symbol keeps its own name where nothing is in the way (`Alias.names_apart`).
-/

namespace Amalgam.Alias

/-! ## One symbol -/

/-- The search for a name from a number on: it stops at the first name that is not taken. -/
inductive Probes (taken : List String) (stem : String) : Nat → String → Prop where
  | stop {n : Nat} (free : nth stem n ∉ taken) : Probes taken stem n (nth stem n)
  | next {n : Nat} {name : String} (busy : nth stem n ∈ taken) (more : Probes taken stem (n + 1) name) : Probes taken stem n name

variable {taken : List String} {stem : String}

/-- The name chosen is the first that is not taken, and there are no more names tried than taken. -/
theorem exists_choose_eq_nth (taken : List String) (stem : String) : ∃ n, 1 ≤ n ∧ n ≤ taken.length + 1 ∧
    choose taken stem = nth stem n ∧ nth stem n ∉ taken ∧ ∀ k, 1 ≤ k → k < n → nth stem k ∈ taken := by
  have hle := firstFree_le (fun n => !taken.contains (nth stem n)) taken.length 1
  refine ⟨_, le_firstFree _ _ _, by omega, rfl, choose_not_mem taken stem, fun k hk hlt => ?_⟩
  have := not_free_of_lt_firstFree _ _ _ _ hk hlt
  rwa [Bool.not_eq_false', List.contains_iff_mem] at this

theorem Probes.unique {n : Nat} {name name' : String} (h : Probes taken stem n name) (h' : Probes taken stem n name') : name = name' := by
  induction h with
  | stop free =>
    cases h' with
    | stop => rfl
    | next busy => exact absurd busy free
  | next busy _ ih =>
    cases h' with
    | stop free => exact absurd busy free
    | next _ more => exact ih more

/-- The search gets past names that are taken. -/
theorem Probes.of_busy {m n : Nat} (hmn : m ≤ n) (busy : ∀ k, m ≤ k → k < n → nth stem k ∈ taken) (free : nth stem n ∉ taken) :
    Probes taken stem m (nth stem n) := by
  obtain ⟨d, rfl⟩ := Nat.exists_eq_add_of_le hmn
  induction d generalizing m with
  | zero => exact .stop free
  | succ d ih =>
    refine .next (busy m (Nat.le_refl m) (by omega)) ?_
    rw [show m + (d + 1) = m + 1 + d by omega] at busy free ⊢
    exact ih (by omega) (fun k hk => busy k (by omega)) free

/-- The search ends, with the name chosen. -/
theorem probes_iff {name : String} : Probes taken stem 1 name ↔ name = choose taken stem := by
  obtain ⟨n, hn, -, hchoose, free, busy⟩ := exists_choose_eq_nth taken stem
  have hends : Probes taken stem 1 (choose taken stem) := hchoose ▸ Probes.of_busy hn busy free
  exact ⟨fun h => h.unique hends, fun h => h ▸ hends⟩

/-! ## All symbols -/

/-- The naming of symbols one after another, given the names taken and the aliases so far: a path that has a name keeps it. -/
inductive Names : List String → Entries String → List SymbolRef → Entries String → Prop where
  | done {taken : List String} {t : Entries String} : Names taken t [] t
  | known {taken : List String} {t t' : Entries String} {r : SymbolRef} {rest : List SymbolRef} (has : t.has r.path = true)
      (more : Names taken t rest t') : Names taken t (r :: rest) t'
  | new {taken : List String} {t t' : Entries String} {r : SymbolRef} {rest : List SymbolRef} {name : String}
      (hasNot : t.has r.path = false) (probes : Probes taken (seed r) 1 name)
      (more : Names (name :: taken) (t.put r.path name) rest t') : Names taken t (r :: rest) t'

variable {t t' : Entries String} {symbols earlier later : List SymbolRef} {reserved : List String} {r : SymbolRef}

theorem assignFrom_known (h : t.has r.path = true) : assignFrom taken t (r :: later) = assignFrom taken t later := by
  rw [assignFrom, if_pos h]

theorem assignFrom_new (h : t.has r.path = false) : assignFrom taken t (r :: later) =
    assignFrom (choose taken (seed r) :: taken) (t.put r.path (choose taken (seed r))) later := by
  rw [assignFrom, if_neg (by rw [h]; exact Bool.false_ne_true)]

/-- The naming ends, with the names assigned. -/
theorem names_iff : Names taken t symbols t' ↔ t' = assignFrom taken t symbols := by
  induction symbols generalizing taken t with
  | nil =>
    constructor
    · rintro ⟨⟩
      rfl
    · rintro rfl
      exact .done
  | cons r rest ih =>
    cases hhas : t.has r.path with
    | true =>
      rw [assignFrom_known hhas, ← ih]
      constructor
      · intro h
        cases h with
        | known _ more => exact more
        | new hasNot => exact absurd (hhas.symm.trans hasNot) (by decide)
      · exact .known hhas
    | false =>
      rw [assignFrom_new hhas, ← ih]
      constructor
      · intro h
        cases h with
        | known has => exact absurd (hhas.symm.trans has) (by decide)
        | new _ probes more => exact probes_iff.1 probes ▸ more
      · exact .new hhas (probes_iff.2 rfl)

/-! ## A symbol among others -/

/-- The names that are taken once some symbols are named. -/
def takenBy : List String → Entries String → List SymbolRef → List String
  | taken, _, [] => taken
  | taken, t, r :: rest =>
    if t.has r.path then takenBy taken t rest
    else
      let name := choose taken (seed r)
      takenBy (name :: taken) (t.put r.path name) rest

theorem assignFrom_append : assignFrom taken t (earlier ++ later) =
    assignFrom (takenBy taken t earlier) (assignFrom taken t earlier) later := by
  induction earlier generalizing taken t with
  | nil => rfl
  | cons r rest ih =>
    cases hhas : t.has r.path with
    | true =>
      rw [List.cons_append, assignFrom_known hhas, assignFrom_known hhas, takenBy, if_pos hhas]
      exact ih
    | false =>
      rw [List.cons_append, assignFrom_new hhas, assignFrom_new hhas, takenBy, if_neg (by rw [hhas]; exact Bool.false_ne_true)]
      exact ih

/-- A path keeps its name. -/
theorem get?_assignFrom {path name : String} (h : t.get? path = some name) : (assignFrom taken t symbols).get? path = some name := by
  induction symbols generalizing taken t with
  | nil => exact h
  | cons r rest ih =>
    cases hhas : t.has r.path with
    | true =>
      rw [assignFrom_known hhas]
      exact ih h
    | false =>
      rw [assignFrom_new hhas]
      refine ih ?_
      rw [Entries.get?_put_of_ne _ _ fun heq => ?_, h]
      have hsome : (t.get? r.path).isSome = false := hhas
      rw [← heq, h] at hsome
      cases hsome

/-- What is taken is what was taken before and the names given since. -/
theorem mem_takenBy {name : String} (htaken : t.map Prod.snd ⊆ taken) :
    name ∈ takenBy taken t symbols ↔ name ∈ taken ∨ ∃ e ∈ assignFrom taken t symbols, e.2 = name := by
  induction symbols generalizing taken t with
  | nil =>
    refine ⟨Or.inl, fun h => h.elim id ?_⟩
    rintro ⟨e, he, rfl⟩
    exact htaken (List.mem_map_of_mem he)
  | cons r rest ih =>
    cases hhas : t.has r.path with
    | true =>
      rw [assignFrom_known hhas, takenBy, if_pos hhas]
      exact ih htaken
    | false =>
      have hno : ¬t.has r.path = true := by
        rw [hhas]
        exact Bool.false_ne_true
      rw [assignFrom_new hhas, takenBy, if_neg hno]
      have hput := Entries.put_of_not_mem (fun hmem => hno ((Entries.has_iff_mem_keys _ _).2 hmem)) (choose taken (seed r))
      have hgiven : (r.path, choose taken (seed r)) ∈
          assignFrom (choose taken (seed r) :: taken) (t.put r.path (choose taken (seed r))) rest :=
        Entries.mem_of_get? (get?_assignFrom (Entries.get?_put_self _ _ _))
      rw [ih]
      · rw [List.mem_cons]
        refine ⟨?_, fun h => h.imp Or.inr id⟩
        rintro ((rfl | h) | h)
        · exact Or.inr ⟨_, hgiven, rfl⟩
        · exact Or.inl h
        · exact Or.inr h
      · rw [hput, List.map_append]
        intro a ha
        rcases List.mem_append.1 ha with ha | ha
        · exact List.mem_cons_of_mem _ (htaken ha)
        · exact List.mem_cons.2 (Or.inl (List.mem_singleton.1 ha))

/-- A name that is no longer free when the turn comes to a symbol behind some others. -/
def IsTaken (symbols : List SymbolRef) (reserved : List String) (earlier : List SymbolRef) (name : String) : Prop :=
  name ∈ reserved ∨ Text.isReserved name = true ∨ ∃ q ∈ earlier, (assign symbols reserved).get? q.path = some name

theorem IsTaken.mono {name : String} {earlier' : List SymbolRef} (h : IsTaken symbols reserved earlier name)
    (hsub : ∀ q ∈ earlier, q ∈ earlier') : IsTaken symbols reserved earlier' name :=
  h.imp id fun h => h.imp id fun ⟨q, hq, hname⟩ => ⟨q, hsub q hq, hname⟩

/-- The first symbol of a path is named by the first of its names that is still free. -/
theorem get?_assign (hsymbols : symbols = earlier ++ r :: later) (hfirst : ∀ q ∈ earlier, q.path ≠ r.path) :
    ∃ n, 1 ≤ n ∧ (assign symbols reserved).get? r.path = some (nth (seed r) n) ∧ ¬IsTaken symbols reserved earlier (nth (seed r) n) ∧
      ∀ k, 1 ≤ k → k < n → IsTaken symbols reserved earlier (nth (seed r) k) := by
  have hassign : assign symbols reserved = assignFrom (takenBy (reserved ++ Text.reservedWords) [] earlier)
      (assign earlier reserved) (r :: later) := by
    rw [hsymbols]
    exact assignFrom_append
  have hhas : (assign earlier reserved).has r.path = false := by
    rw [← Bool.not_eq_true, Entries.has_iff_mem_keys, mem_keys_assign]
    rintro ⟨q, hq, heq⟩
    exact hfirst q hq heq
  have hget : ∀ q ∈ earlier, (assign symbols reserved).get? q.path = (assign earlier reserved).get? q.path := by
    intro q hq
    obtain ⟨name, hname⟩ := Option.isSome_iff_exists.1
      ((Entries.has_iff_mem_keys _ _).2 (mem_keys_assign.2 ⟨q, hq, rfl⟩) : ((assign earlier reserved).get? q.path).isSome = true)
    rw [hname, hassign]
    exact get?_assignFrom hname
  have hnodup : (assign earlier reserved).keys.Nodup :=
    (@nodup_assignFrom _ [] _ List.nodup_nil List.nodup_nil (List.nil_subset _)).1
  have htaken : ∀ name, name ∈ takenBy (reserved ++ Text.reservedWords) [] earlier ↔ IsTaken symbols reserved earlier name := by
    intro name
    rw [mem_takenBy (List.nil_subset _), List.mem_append, or_assoc]
    unfold IsTaken Text.isReserved
    rw [List.contains_iff_mem]
    refine or_congr_right (or_congr_right ⟨?_, ?_⟩)
    · rintro ⟨e, he, rfl⟩
      obtain ⟨q, hq, hpath⟩ := mem_keys_assign.1 (List.mem_map_of_mem he : e.1 ∈ (assign earlier reserved).keys)
      exact ⟨q, hq, by rw [hget q hq, hpath]; exact Entries.get?_of_mem hnodup he⟩
    · rintro ⟨q, hq, hname⟩
      rw [hget q hq] at hname
      exact ⟨_, Entries.mem_of_get? hname, rfl⟩
  obtain ⟨n, hn, -, hchoose, free, busy⟩ := exists_choose_eq_nth (takenBy (reserved ++ Text.reservedWords) [] earlier) (seed r)
  refine ⟨n, hn, ?_, fun h => free ((htaken _).2 h), fun k hk hlt => (htaken _).1 (busy k hk hlt)⟩
  rw [hassign, assignFrom_new hhas, hchoose]
  exact get?_assignFrom (Entries.get?_put_self _ _ _)

theorem nth_one (stem : String) : nth stem 1 = stem := rfl

/-- Before a symbol, or in its place, there is the first symbol of its path. -/
theorem exists_first (hsymbols : symbols = earlier ++ r :: later) : ∃ front q behind, symbols = front ++ q :: behind ∧ q.path = r.path ∧
    (∀ x ∈ front, x.path ≠ r.path) ∧ (∀ x ∈ front, x ∈ earlier) ∧ (q ∈ earlier ∨ q = r) := by
  by_cases hfirst : ∀ q ∈ earlier, q.path ≠ r.path
  · exact ⟨earlier, r, later, hsymbols, rfl, hfirst, fun x hx => hx, Or.inr rfl⟩
  · have hmem : r.path ∈ earlier.map SymbolRef.path := by
      simp only [not_forall, ne_eq, not_not] at hfirst
      obtain ⟨q, hq, hpath⟩ := hfirst
      exact List.mem_map.2 ⟨q, hq, hpath⟩
    obtain ⟨paths, paths', hpaths, hnot⟩ := List.eq_append_cons_of_mem hmem
    obtain ⟨front, behind, rfl, rfl, hbehind⟩ := List.map_eq_append_iff.1 hpaths
    obtain ⟨q, behind, rfl, hpath, -⟩ := List.map_eq_cons_iff.1 hbehind
    refine ⟨front, q, behind ++ r :: later, ?_, hpath, fun x hx heq => hnot (heq ▸ List.mem_map_of_mem hx),
      fun x hx => List.mem_append_left _ hx, Or.inl (List.mem_append_right _ List.mem_cons_self)⟩
    rw [hsymbols, List.append_assoc, List.cons_append]

/--
Names of symbols. The loops over symbols and numbers end, and with `assign`. It names the paths of the symbols and no others, two
paths never alike and none by a name to be avoided or a reserved word; and a symbol gets its own name where that is still free, unless
an earlier symbol of the same path asks for another: a path is named once.
-/
theorem names_apart (symbols : List SymbolRef) (reserved : List String) :
    (∀ t, Names (reserved ++ Text.reservedWords) [] symbols t ↔ t = assign symbols reserved) ∧
    (∀ path, (∃ name, (assign symbols reserved).get? path = some name) ↔ ∃ r ∈ symbols, r.path = path) ∧
    (∀ path other name, (assign symbols reserved).get? path = some name → (assign symbols reserved).get? other = some name →
      path = other) ∧
    (∀ path name, (assign symbols reserved).get? path = some name → name ∉ reserved ∧ Text.isReserved name = false) ∧
    ∀ earlier r later, symbols = earlier ++ r :: later → (∀ q ∈ earlier, q.path = r.path → seed q = seed r) →
      ¬IsTaken symbols reserved earlier (seed r) → (assign symbols reserved).get? r.path = some (seed r) := by
  refine ⟨fun t => names_iff, fun path => ?_, fun path other name => assign_injective, fun path name h => ?_, ?_⟩
  · have hkeys : path ∈ (assign symbols reserved).keys ↔ ∃ r ∈ symbols, r.path = path := mem_keys_assign
    rw [← hkeys, ← Entries.has_iff_mem_keys]
    exact Option.isSome_iff_exists.symm
  · obtain ⟨hreserved, hword⟩ := assign_fresh h
    refine ⟨hreserved, ?_⟩
    rwa [Text.isReserved, ← Bool.not_eq_true, List.contains_iff_mem]
  · intro earlier r later hsymbols hsame hfree
    obtain ⟨front, q, behind, hsplit, hpath, hfirst, hfront, hq⟩ := exists_first hsymbols
    have hseed : seed q = seed r := hq.elim (fun hq => hsame q hq hpath) fun hq => hq ▸ rfl
    obtain ⟨n, hn, hget, -, hbusy⟩ : ∃ n, 1 ≤ n ∧ (assign symbols reserved).get? q.path = some (nth (seed q) n) ∧ _ :=
      get?_assign hsplit (hpath ▸ hfirst)
    rw [hpath, hseed] at hget
    obtain rfl | hlt := Nat.eq_or_lt_of_le hn
    · rw [hget, nth_one]
    · refine absurd ?_ hfree
      have hbusy := hbusy 1 (Nat.le_refl 1) hlt
      rw [nth_one, hseed] at hbusy
      exact hbusy.mono hfront

/-- Two symbols that share a path, and ask for names of their own. -/
def namesakes : List SymbolRef := [⟨"a", "x:B"⟩, ⟨"a:x", "B"⟩]

/-- A path is named for its first symbol alone: a later one of the path may have to do without its own name, though nothing is in the way. -/
theorem not_named_apart : ¬∀ symbols reserved earlier r later, symbols = earlier ++ r :: later →
    ¬IsTaken symbols reserved earlier (seed r) → (assign symbols reserved).get? r.path = some (seed r) := by
  intro h
  have hassign : assign namesakes ["x_B"] = [("a:x:B", "x_B_2")] := by decide +kernel
  have hseed : seed ⟨"a:x", "B"⟩ = "B" := by decide +kernel
  have hown := h namesakes ["x_B"] (namesakes.take 1) ⟨"a:x", "B"⟩ [] rfl
  rw [hseed] at hown
  unfold IsTaken at hown
  rw [hassign] at hown
  refine absurd (hown ?_) (by decide)
  rintro (hreserved | hword | ⟨q, hq, hname⟩)
  · exact absurd hreserved (by decide)
  · exact absurd hword (by decide)
  · revert hname
    revert q
    decide

/-- Symbols of which two ask for one name, a third for the numbered form of it, and a fourth has none of its own. -/
def things : List SymbolRef := [⟨"a", "Thing"⟩, ⟨"b", "Outer.Thing"⟩, ⟨"c", "Thing_2"⟩, ⟨"d", "f.<locals>.<lambda>"⟩]

theorem names_apart_things : (assign things ["self"]).get? "b:Outer.Thing" = some "Thing_2" ∧
    (∃ name, (assign things ["self"]).get? "c:Thing_2" = some name ∧ name ≠ "Thing_2") ∧
    (assign things ["self"]).get? "d:f.<locals>.<lambda>" = some "_lambda_" := by
  have hassign : assign things ["self"] = [("a:Thing", "Thing"), ("b:Outer.Thing", "Thing_2"), ("c:Thing_2", "Thing_2_2"),
      ("d:f.<locals>.<lambda>", "_lambda_")] := by decide +kernel
  obtain ⟨-, hpaths, hapart, -, hown⟩ := names_apart things ["self"]
  have hseed : seed ⟨"d", "f.<locals>.<lambda>"⟩ = "_lambda_" := by decide +kernel
  have hsecond : (assign things ["self"]).get? "b:Outer.Thing" = some "Thing_2" := by
    rw [hassign]
    rfl
  refine ⟨hsecond, ?_, ?_⟩
  · obtain ⟨name, hname⟩ := (hpaths "c:Thing_2").2 ⟨⟨"c", "Thing_2"⟩, by decide, rfl⟩
    refine ⟨name, hname, ?_⟩
    rintro rfl
    exact absurd (hapart _ _ _ hname hsecond) (by decide)
  · refine hown (things.take 3) ⟨"d", "f.<locals>.<lambda>"⟩ [] rfl (by decide) ?_
    rw [hseed]
    rintro (hreserved | hword | ⟨q, hq, hname⟩)
    · exact absurd hreserved (by decide)
    · exact absurd hword (by decide)
    · rw [hassign] at hname
      revert hname
      revert q
      decide

end Amalgam.Alias
