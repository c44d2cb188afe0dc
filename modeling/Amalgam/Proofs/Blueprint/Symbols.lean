import Amalgam.Blueprint.Build
import Mathlib.Data.List.Perm.Subperm
import Mathlib.Data.List.Nodup

/-!
# Symbols and their names

Every claimed symbol enters the table of symbols under its own path, and every symbol of the table gets a name. The name
is none of those to be avoided, no reserved word, and no two symbols share one.
-/

namespace Amalgam

/-! ## Choosing a free name -/

/-- If one of the numbers tried is free, the number found is. -/
theorem firstFree_free {f : Nat → Bool} {fuel n k : Nat} (h : n ≤ k) (hk : k ≤ n + fuel) (hfree : f k = true) :
    f (firstFree f fuel n) = true := by
  induction fuel generalizing n with
  | zero =>
    have : k = n := by omega
    rw [this] at hfree
    exact hfree
  | succ fuel ih =>
    unfold firstFree
    by_cases hn : f n = true
    · rwa [if_pos hn]
    · rw [if_neg hn]
      have : k ≠ n := fun he => hn (he ▸ hfree)
      exact ih (by omega) (by omega)

theorem firstFree_congr {f g : Nat → Bool} (h : ∀ n, f n = g n) {fuel n : Nat} :
    firstFree f fuel n = firstFree g fuel n := by
  rw [funext h]

/-- Among one more numbers than there are names taken, one gives a name that is not taken. -/
theorem firstFree_of_injective {α : Type} {f : Nat → Bool} {name : Nat → α} {taken : List α}
    (injective : ∀ {m n : Nat}, 1 ≤ m → 1 ≤ n → name m = name n → m = n) (free : ∀ n, name n ∉ taken → f n = true) :
    f (firstFree f taken.length 1) = true := by
  by_contra hchosen
  have hall : ∀ k, 1 ≤ k → k ≤ 1 + taken.length → name k ∈ taken := by
    intro k h1 hk
    by_contra hfree
    exact hchosen (firstFree_free h1 hk (free k hfree))
  have hnodup : ((List.range' 1 (taken.length + 1)).map name).Nodup := by
    refine (List.nodup_range' 1).map_on ?_
    intro m hm n hn h
    rw [List.mem_range'_1] at hm hn
    exact injective hm.1 hn.1 h
  have hsub : (List.range' 1 (taken.length + 1)).map name ⊆ taken := by
    intro x hx
    obtain ⟨k, hk, rfl⟩ := List.mem_map.1 hx
    rw [List.mem_range'_1] at hk
    exact hall k hk.1 (by omega)
  have := (List.subperm_of_subset hnodup hsub).length_le
  rw [List.length_map, List.length_range'] at this
  omega

namespace Alias

theorem toString_injective {m n : Nat} (h : toString m = toString n) : m = n := by
  have hd : Nat.toDigits 10 m = Nat.toDigits 10 n := String.ofList_injective h
  rw [← Nat.ofDigitChars_ten_toDigits (n := m), hd, Nat.ofDigitChars_ten_toDigits]

theorem nth_injective {seed : String} {m n : Nat} (hm : 1 ≤ m) (hn : 1 ≤ n) (h : nth seed m = nth seed n) : m = n := by
  have longer : ∀ k : Nat, seed ++ "_" ++ toString k ≠ seed := by
    intro k he
    have := congrArg String.length he
    rw [String.length_append, String.length_append] at this
    have : ("_" : String).length = 1 := rfl
    omega
  unfold nth at h
  split at h <;> split at h
  · omega
  · exact absurd h.symm (longer n)
  · exact absurd h (longer m)
  · exact toString_injective (String.append_right_inj _ |>.1 h)

/-- The name chosen is free. -/
theorem choose_not_mem (taken : List String) (seed : String) : choose taken seed ∉ taken := by
  have := firstFree_of_injective (f := fun n => !taken.contains (nth seed n)) (@nth_injective seed)
    fun n hn => by simpa using hn
  rwa [Bool.not_eq_true', ← Bool.not_eq_true, List.contains_iff_mem] at this

/-! ## Naming the symbols -/

theorem mem_keys_assignFrom {taken : List String} {aliases : Entries String} {symbols : List SymbolRef} {path : String} :
    path ∈ (assignFrom taken aliases symbols).keys ↔ path ∈ aliases.keys ∨ ∃ r ∈ symbols, r.path = path := by
  induction symbols generalizing taken aliases with
  | nil => simp [assignFrom]
  | cons r rest ih =>
    unfold assignFrom
    by_cases h : aliases.has r.path = true
    · rw [if_pos h, ih]
      rw [Entries.has_iff_mem_keys] at h
      refine or_congr_right' fun hpath => ?_
      simp only [List.mem_cons, exists_eq_or_imp]
      exact ⟨Or.inr, fun h' => h'.resolve_left fun he => hpath (he ▸ h)⟩
    · rw [if_neg h, ih, Entries.mem_keys_put]
      simp only [List.mem_cons, exists_eq_or_imp]
      rw [or_comm (a := path = r.path), or_assoc, eq_comm (a := path)]

/-- Exactly the paths of the symbols are named. -/
theorem mem_keys_assign {symbols : List SymbolRef} {reserved : List String} {path : String} :
    path ∈ (assign symbols reserved).keys ↔ ∃ r ∈ symbols, r.path = path := by
  unfold assign
  rw [mem_keys_assignFrom]
  simp [Entries.keys]

/-- Names given so far stay apart from each other, and those to come from all names taken. -/
theorem assignFrom_fresh {taken : List String} {aliases : Entries String} {symbols : List SymbolRef} :
    ∀ e ∈ assignFrom taken aliases symbols, e ∈ aliases ∨ e.2 ∉ taken := by
  induction symbols generalizing taken aliases with
  | nil => exact fun e he => Or.inl he
  | cons r rest ih =>
    intro e he
    unfold assignFrom at he
    split at he
    · exact ih e he
    rcases ih e he with he | he
    · rcases Entries.mem_put he with he | rfl
      · exact Or.inl he
      · exact Or.inr (choose_not_mem taken _)
    · exact Or.inr fun h => he (List.mem_cons_of_mem _ h)

/-- No name to be avoided and no reserved word is given to a symbol. -/
theorem assign_fresh {symbols : List SymbolRef} {reserved : List String} {path name : String}
    (h : (assign symbols reserved).get? path = some name) : name ∉ reserved ∧ name ∉ Text.reservedWords := by
  have := (assignFrom_fresh _ (Entries.mem_of_get? h)).resolve_left List.not_mem_nil
  rwa [List.mem_append, not_or] at this

/-- Two symbols share no name: each name given is taken from then on. -/
theorem nodup_assignFrom {taken : List String} {aliases : Entries String} {symbols : List SymbolRef}
    (hkeys : aliases.keys.Nodup) (hnames : (aliases.map Prod.snd).Nodup) (htaken : aliases.map Prod.snd ⊆ taken) :
    (assignFrom taken aliases symbols).keys.Nodup ∧ ((assignFrom taken aliases symbols).map Prod.snd).Nodup := by
  induction symbols generalizing taken aliases with
  | nil => exact ⟨hkeys, hnames⟩
  | cons r rest ih =>
    unfold assignFrom
    by_cases h : aliases.has r.path = true
    · rw [if_pos h]
      exact ih hkeys hnames htaken
    rw [if_neg h]
    have hput := Entries.put_of_not_mem (fun hmem => h ((Entries.has_iff_mem_keys _ _).2 hmem)) (choose taken (seed r))
    refine ih (Entries.nodup_keys_put hkeys _ _) ?_ ?_
    · rw [hput, List.map_append]
      refine List.nodup_append.2 ⟨hnames, List.nodup_singleton _, ?_⟩
      rintro a ha _ hb rfl
      have hchosen : a = choose taken (seed r) := List.mem_singleton.1 hb
      exact choose_not_mem taken _ (hchosen ▸ htaken ha)
    · rw [hput, List.map_append]
      intro a ha
      rcases List.mem_append.1 ha with ha | ha
      · exact List.mem_cons_of_mem _ (htaken ha)
      · exact List.mem_cons.2 (Or.inl (List.mem_singleton.1 ha))

theorem assign_injective {symbols : List SymbolRef} {reserved : List String} {path other name : String}
    (h : (assign symbols reserved).get? path = some name) (h' : (assign symbols reserved).get? other = some name) :
    path = other := by
  have hnames : ((assign symbols reserved).map Prod.snd).Nodup :=
    (@nodup_assignFrom _ [] _ List.nodup_nil List.nodup_nil (List.nil_subset _)).2
  have := List.inj_on_of_nodup_map hnames (Entries.mem_of_get? h) (Entries.mem_of_get? h') rfl
  exact congrArg Prod.fst this

/-- Every name is one of those tried for a symbol of the path. -/
theorem assignFrom_tried {taken : List String} {aliases : Entries String} {symbols : List SymbolRef} :
    ∀ e ∈ assignFrom taken aliases symbols, e ∈ aliases ∨ ∃ r ∈ symbols, r.path = e.1 ∧ ∃ n, e.2 = nth (seed r) n := by
  induction symbols generalizing taken aliases with
  | nil => exact fun e he => Or.inl he
  | cons r rest ih =>
    intro e he
    unfold assignFrom at he
    split at he
    · refine (ih e he).imp id ?_
      rintro ⟨s, hs, h⟩
      exact ⟨s, List.mem_cons_of_mem _ hs, h⟩
    rcases ih e he with he | ⟨s, hs, h⟩
    · rcases Entries.mem_put he with he | rfl
      · exact Or.inl he
      · exact Or.inr ⟨r, List.mem_cons_self, rfl, _, rfl⟩
    · exact Or.inr ⟨s, List.mem_cons_of_mem _ hs, h⟩

theorem assign_tried {symbols : List SymbolRef} {reserved : List String} {path name : String}
    (h : (assign symbols reserved).get? path = some name) : ∃ r ∈ symbols, r.path = path ∧ ∃ n, name = nth (seed r) n :=
  (assignFrom_tried _ (Entries.mem_of_get? h)).resolve_left List.not_mem_nil

end Alias

/-! ## The table of symbols -/

namespace Blueprint

theorem mem_keys_foldl_symbols {claims : Claims} {table : Entries SymbolRef} {path : String} :
    path ∈ (claims.foldl (fun t c => t.putNew c.1.path c.1) table).keys ↔
      path ∈ table.keys ∨ ∃ c ∈ claims, c.1.path = path := by
  induction claims generalizing table with
  | nil => simp
  | cons c rest ih =>
    rw [List.foldl_cons, ih, Entries.mem_keys_putNew]
    simp only [List.mem_cons, exists_eq_or_imp]
    rw [or_comm (a := path = c.1.path), or_assoc, eq_comm (a := path)]

theorem mem_keys_symbolsOf {claims : Claims} {path : String} :
    path ∈ (symbolsOf claims).keys ↔ ∃ c ∈ claims, c.1.path = path := by
  unfold symbolsOf
  rw [mem_keys_foldl_symbols]
  simp [Entries.keys]

/-- A symbol stands in the table under its own path. -/
theorem path_of_mem_symbolsOf {claims : Claims} {e : String × SymbolRef} (h : e ∈ symbolsOf claims) :
    e.2.path = e.1 := by
  suffices ∀ table : Entries SymbolRef, (∀ e ∈ table, e.2.path = e.1) →
      ∀ e ∈ claims.foldl (fun t c => t.putNew c.1.path c.1) table, e.2.path = e.1 from
    this [] (by simp) e h
  clear h e
  induction claims with
  | nil => exact fun _ htable => htable
  | cons c rest ih =>
    intro table htable
    refine ih _ fun e he => ?_
    rcases Entries.mem_putNew he with he | rfl
    · exact htable e he
    · rfl

/-- Symbols and aliases are of the same paths: those of the claims. -/
theorem mem_keys_ofClaims {o : Outline} {claims : Claims} {path : String} :
    path ∈ (ofClaims o claims).aliases.keys ↔ path ∈ (ofClaims o claims).symbols.keys := by
  show path ∈ (Alias.assign ((symbolsOf claims).map Prod.snd) _).keys ↔ path ∈ (symbolsOf claims).keys
  rw [Alias.mem_keys_assign]
  constructor
  · rintro ⟨r, hr, rfl⟩
    obtain ⟨e, he, rfl⟩ := List.mem_map.1 hr
    rw [path_of_mem_symbolsOf he]
    exact List.mem_map_of_mem he
  · intro hpath
    obtain ⟨e, he, rfl⟩ := List.mem_map.1 hpath
    exact ⟨e.2, List.mem_map_of_mem he, path_of_mem_symbolsOf he⟩

end Blueprint

end Amalgam
