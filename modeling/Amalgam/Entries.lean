/-!
Tables that keep the order in which their keys first arrived.

Writing to a known key changes the entry where it stands; a new key goes to the end. `get?_put_self` and
`get?_put_of_ne` say what a write does to the view `get?`, and `keys_put` what it does to the order.
-/

namespace Amalgam

/-- A table by text keys in order of arrival. -/
abbrev Entries (α : Type) := List (String × α)

namespace Entries

variable {α : Type}

/-- The keys in order. -/
def keys (t : Entries α) : List String := t.map Prod.fst

/-- The entry of a key. -/
def get? : Entries α → String → Option α
  | [], _ => none
  | (k, v) :: rest, key => if k = key then some v else get? rest key

/-- Whether the key has an entry. -/
def has (t : Entries α) (key : String) : Bool := (t.get? key).isSome

/-- Writes an entry: in place for a known key, at the end for a new one. -/
def put : Entries α → String → α → Entries α
  | [], key, value => [(key, value)]
  | (k, v) :: rest, key, value => if k = key then (k, value) :: rest else (k, v) :: put rest key value

/-- Drops every entry of a key. -/
def erase (t : Entries α) (key : String) : Entries α := t.filter fun e => e.1 != key

/-- Writes the entry only if the key is new. -/
def putNew (t : Entries α) (key : String) (value : α) : Entries α :=
  if t.has key then t else t.put key value

/-- Writes the entries one after another. -/
def ofList (es : List (String × α)) : Entries α := es.foldl (fun t e => t.put e.1 e.2) []

@[simp] theorem get?_put_self (t : Entries α) (key : String) (value : α) : (t.put key value).get? key = some value := by
  induction t with
  | nil => simp [put, get?]
  | cons e rest ih =>
    obtain ⟨k, v⟩ := e
    by_cases h : k = key <;> simp [put, get?, h, ih]

theorem get?_put_of_ne (t : Entries α) {key other : String} (value : α) (h : other ≠ key) :
    (t.put key value).get? other = t.get? other := by
  induction t with
  | nil => simp [put, get?, h.symm]
  | cons e rest ih =>
    obtain ⟨k, v⟩ := e
    by_cases hk : k = key
    · subst hk
      simp [put, get?, h.symm]
    · by_cases ho : k = other
      · subst ho
        simp [put, get?, hk]
      · simp [put, get?, hk, ho, ih]

theorem keys_put (t : Entries α) (key : String) (value : α) :
    (t.put key value).keys = if key ∈ t.keys then t.keys else t.keys ++ [key] := by
  induction t with
  | nil => simp [put, keys]
  | cons e rest ih =>
    obtain ⟨k, v⟩ := e
    by_cases hk : k = key
    · simp [put, keys, hk]
    · have : key ≠ k := fun h => hk h.symm
      simp only [keys] at ih
      by_cases hm : key ∈ rest.map Prod.fst <;> simp_all [put, keys]

theorem get?_eq_none_iff (t : Entries α) (key : String) : t.get? key = none ↔ key ∉ t.keys := by
  induction t with
  | nil => simp [get?, keys]
  | cons e rest ih =>
    obtain ⟨k, v⟩ := e
    by_cases hk : k = key
    · simp [get?, keys, hk]
    · have hk' : key ≠ k := fun h => hk h.symm
      simp only [keys] at ih
      simp [get?, keys, hk, hk', ih]

theorem has_iff_mem_keys (t : Entries α) (key : String) : t.has key = true ↔ key ∈ t.keys := by
  rw [has, Option.isSome_iff_ne_none, Ne, get?_eq_none_iff, Decidable.not_not]

theorem erase_of_has_eq_false {t : Entries α} {key : String} (h : t.has key = false) : t.erase key = t := by
  refine List.filter_eq_self.2 fun e he => ?_
  have hkey : e.1 ≠ key := by
    rintro rfl
    have : t.has e.1 = true := (has_iff_mem_keys t e.1).2 (List.mem_map_of_mem he)
    rw [h] at this
    cases this
  simpa using hkey

@[simp] theorem get?_erase_self (t : Entries α) (key : String) : (t.erase key).get? key = none := by
  rw [get?_eq_none_iff]
  simp [erase, keys]

theorem has_erase_self (t : Entries α) (key : String) : (t.erase key).has key = false := by
  rw [has, get?_erase_self]
  rfl

/-- Only an entry that is there can be dropped. -/
theorem erase_eq_self_iff (t : Entries α) (key : String) : t.erase key = t ↔ t.has key = false := by
  constructor
  · intro h
    rw [← h, has_erase_self]
  · exact erase_of_has_eq_false

@[simp] theorem erase_erase (t : Entries α) (key : String) : (t.erase key).erase key = t.erase key :=
  erase_of_has_eq_false (has_erase_self t key)

@[simp] theorem erase_put (t : Entries α) (key : String) (value : α) : (t.put key value).erase key = t.erase key := by
  induction t with
  | nil => simp [put, erase]
  | cons e rest ih =>
    obtain ⟨k, v⟩ := e
    simp only [erase] at ih
    by_cases h : k = key <;> simp [put, erase, h, ih]

/-- Only what an entry has already can be written without a change. -/
theorem put_eq_self_iff (t : Entries α) (key : String) (value : α) : t.put key value = t ↔ t.get? key = some value := by
  induction t with
  | nil => simp [put, get?]
  | cons e rest ih =>
    obtain ⟨k, v⟩ := e
    by_cases h : k = key
    · simp [put, get?, h, eq_comm]
    · simp [put, get?, h, ih]

theorem mem_of_get? {t : Entries α} {key : String} {value : α} (h : t.get? key = some value) : (key, value) ∈ t := by
  induction t with
  | nil => simp [get?] at h
  | cons e rest ih =>
    obtain ⟨k, v⟩ := e
    by_cases hk : k = key
    · subst hk
      simp only [get?, if_true, Option.some.injEq] at h
      simp [h]
    · simp only [get?, if_neg hk] at h
      exact List.mem_cons_of_mem _ (ih h)

theorem mem_keys_of_get? {t : Entries α} {key : String} {value : α} (h : t.get? key = some value) : key ∈ t.keys :=
  List.mem_map_of_mem (mem_of_get? h)

/-- Where no key comes twice, every entry is found. -/
theorem get?_of_mem {t : Entries α} (distinct : t.keys.Nodup) {key : String} {value : α} (h : (key, value) ∈ t) :
    t.get? key = some value := by
  induction t with
  | nil => cases h
  | cons e rest ih =>
    obtain ⟨k, v⟩ := e
    obtain ⟨hk, hrest⟩ := List.nodup_cons.1 distinct
    rcases List.mem_cons.1 h with h | h
    · cases h
      simp [get?]
    · have : k ≠ key := fun he => hk (he ▸ List.mem_map.2 ⟨_, h, rfl⟩)
      rw [get?, if_neg this]
      exact ih hrest h

theorem get?_map {β : Type} (t : Entries α) (f : String → α → β) (key : String) :
    get? (t.map fun e => (e.1, f e.1 e.2)) key = (t.get? key).map (f key) := by
  induction t with
  | nil => rfl
  | cons e rest ih =>
    obtain ⟨k, v⟩ := e
    by_cases hk : k = key
    · subst hk
      simp [get?]
    · simp [get?, hk, ih]

/-- Dropping other keys leaves the entry of a key. -/
theorem get?_filter (t : Entries α) {keep : String → Bool} {key : String} (h : keep key = true) :
    get? (t.filter fun e => keep e.1) key = t.get? key := by
  induction t with
  | nil => rfl
  | cons e rest ih =>
    obtain ⟨k, v⟩ := e
    by_cases hk : k = key
    · subst hk
      simp [get?, h]
    · by_cases hkeep : keep k = true <;> simp [get?, hk, hkeep, ih]

theorem get?_erase_of_ne (t : Entries α) {key other : String} (h : other ≠ key) :
    (t.erase key).get? other = t.get? other :=
  @get?_filter α t (fun k => k != key) other (by simpa using h)

theorem mem_keys_put (t : Entries α) (key : String) (value : α) (other : String) :
    other ∈ (t.put key value).keys ↔ other = key ∨ other ∈ t.keys := by
  rw [keys_put]
  by_cases h : key ∈ t.keys
  · rw [if_pos h]
    exact ⟨Or.inr, fun ho => ho.elim (fun he => he ▸ h) id⟩
  · rw [if_neg h, List.mem_append, List.mem_singleton, or_comm]

theorem nodup_keys_put {t : Entries α} (distinct : t.keys.Nodup) (key : String) (value : α) :
    (t.put key value).keys.Nodup := by
  rw [keys_put]
  by_cases h : key ∈ t.keys
  · rwa [if_pos h]
  · rw [if_neg h]
    exact List.nodup_append.2 ⟨distinct, by simp, fun a ha b hb he => h (by simp_all)⟩

theorem put_of_not_mem {t : Entries α} {key : String} (h : key ∉ t.keys) (value : α) :
    t.put key value = t ++ [(key, value)] := by
  induction t with
  | nil => rfl
  | cons e rest ih =>
    obtain ⟨k, v⟩ := e
    simp only [keys, List.map_cons, List.mem_cons, not_or] at h
    rw [put, if_neg fun he => h.1 he.symm, ih h.2]
    rfl

/-- What stands in a table after a write was there before or is what was written. -/
theorem mem_put {t : Entries α} {key : String} {value : α} {e : String × α} (h : e ∈ t.put key value) :
    e ∈ t ∨ e = (key, value) := by
  induction t with
  | nil => exact Or.inr (by simpa [put] using h)
  | cons d rest ih =>
    obtain ⟨k, v⟩ := d
    by_cases hk : k = key
    · simp only [put, if_pos hk, List.mem_cons] at h
      rcases h with h | h
      · exact Or.inr (hk ▸ h)
      · exact Or.inl (List.mem_cons_of_mem _ h)
    · simp only [put, if_neg hk, List.mem_cons] at h
      rcases h with h | h
      · exact Or.inl (h ▸ List.mem_cons_self)
      · exact (ih h).imp (List.mem_cons_of_mem _) id

theorem mem_putNew {t : Entries α} {key : String} {value : α} {e : String × α} (h : e ∈ t.putNew key value) :
    e ∈ t ∨ e = (key, value) := by
  unfold putNew at h
  split at h
  · exact Or.inl h
  · exact mem_put h

theorem mem_keys_putNew (t : Entries α) (key : String) (value : α) (other : String) :
    other ∈ (t.putNew key value).keys ↔ other = key ∨ other ∈ t.keys := by
  unfold putNew
  by_cases h : t.has key
  · rw [if_pos h]
    exact ⟨Or.inr, fun ho => ho.elim (fun he => he ▸ (has_iff_mem_keys t key).1 h) id⟩
  · rw [if_neg h, mem_keys_put]

theorem nodup_keys_putNew {t : Entries α} (distinct : t.keys.Nodup) (key : String) (value : α) :
    (t.putNew key value).keys.Nodup := by
  unfold putNew
  split
  · exact distinct
  · exact nodup_keys_put distinct key value

/-- What was there before a write that changes nothing known comes first. -/
theorem get?_putNew (t : Entries α) (key : String) (value : α) (other : String) :
    (t.putNew key value).get? other = (t.get? other).or (if key = other then some value else none) := by
  unfold putNew
  by_cases h : t.has key = true
  · rw [if_pos h]
    by_cases ho : key = other
    · subst ho
      obtain ⟨v, hv⟩ := Option.isSome_iff_exists.1 h
      rw [hv]
      rfl
    · rw [if_neg ho, Option.or_none]
  · rw [if_neg h]
    by_cases ho : key = other
    · subst ho
      have hnone : t.get? key = none := by simpa [has] using h
      rw [get?_put_self, hnone, if_pos rfl]
      rfl
    · rw [get?_put_of_ne _ _ fun he => ho he.symm, if_neg ho, Option.or_none]

theorem mem_foldl_put {es : List (String × α)} {t : Entries α} {e : String × α}
    (h : e ∈ es.foldl (fun t e => t.put e.1 e.2) t) : e ∈ t ∨ e ∈ es := by
  induction es generalizing t with
  | nil => exact Or.inl h
  | cons d es ih =>
    rcases ih h with h | h
    · rcases mem_put h with h | h
      · exact Or.inl h
      · exact Or.inr (List.mem_cons.2 (Or.inl h))
    · exact Or.inr (List.mem_cons_of_mem _ h)

theorem mem_keys_foldl_put {es : List (String × α)} {t : Entries α} {key : String}
    (h : key ∈ t.keys ∨ key ∈ es.map Prod.fst) : key ∈ (es.foldl (fun t e => t.put e.1 e.2) t).keys := by
  induction es generalizing t with
  | nil => simpa using h
  | cons d es ih =>
    refine ih ?_
    rw [mem_keys_put]
    rcases h with h | h
    · exact Or.inl (Or.inr h)
    · exact (List.mem_cons.1 h).imp Or.inl id

/-- Where a key is written at all, one of the entries written under it is found. -/
theorem exists_get?_ofList {es : List (String × α)} {key : String} (h : key ∈ es.map Prod.fst) :
    ∃ value, (ofList es).get? key = some value ∧ (key, value) ∈ es := by
  have hkey : key ∈ (ofList es).keys := mem_keys_foldl_put (Or.inr h)
  cases hget : (ofList es).get? key with
  | none => exact absurd hkey ((get?_eq_none_iff _ _).1 hget)
  | some value => exact ⟨value, rfl, (mem_foldl_put (mem_of_get? hget)).resolve_left List.not_mem_nil⟩

end Entries

end Amalgam
