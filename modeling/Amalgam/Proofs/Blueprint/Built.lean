import Amalgam.Proofs.Blueprint.Claims
import Amalgam.Proofs.Blueprint.Outline
import Amalgam.Proofs.Text.Runs

/-!
# Blueprints that were built

What can be said of every blueprint that is built, wherever its contributors come from: each symbol stands once under its
path and has a name of its own (`Blueprint.IsBuilt.aliased`), which is an identifier where the last part of its qualified
name is one (`Blueprint.IsBuilt.isFreeName_alias`), and the
contributors are recorded (`Blueprint.IsBuilt.records`).
-/

namespace Amalgam

/-- The characters of its own name that a symbol asks for: those before a number sign. -/
def SymbolRef.stem (r : SymbolRef) : List Char := r.name.toList.takeWhile (· != '#')

/-- Whether they spell an identifier: every word character among them may stand in one, and the first may begin it, unless it is a
digit. All others are replaced. -/
def SymbolRef.IsSpellable (r : SymbolRef) : Prop :=
  (∀ c ∈ r.stem, Text.isWord c = true → Text.isNameContinue c = true) ∧
    ∀ c ∈ r.stem.head?, Text.isWord c = true → Text.isDigit c = true ∨ Text.isNameStart c = true

namespace Alias

theorem isWord_of_mem_seed {r : SymbolRef} {c : Char} (h : c ∈ (seed r).toList) : Text.isWord c = true := by
  have hword : ∀ x ∈ (r.name.toList.takeWhile (· != '#')).map fun c => if Text.isWord c then c else '_', Text.isWord x = true := by
    intro x hx
    obtain ⟨c, -, rfl⟩ := List.mem_map.1 hx
    split
    · assumption
    · decide
  unfold seed at h
  generalize ((r.name.toList.takeWhile (· != '#')).map fun c => if Text.isWord c then c else '_') = word at h hword
  cases word with
  | nil => exact List.all_eq_true.1 (by decide +kernel : "_sym".toList.all Text.isWord = true) c h
  | cons first rest =>
    dsimp only at h
    rw [String.toList_ofList] at h
    split at h
    · rcases List.mem_cons.1 h with rfl | h
      · decide
      · exact hword c h
    · exact hword c h

theorem seed_ne_empty (r : SymbolRef) : seed r ≠ "" := by
  intro h
  have hlist := congrArg String.toList h
  unfold seed at hlist
  dsimp only at hlist
  split at hlist
  · exact absurd hlist (by decide)
  · rw [String.toList_ofList] at hlist
    split at hlist <;> cases hlist

/-- A symbol asks for an identifier exactly if its name spells one. -/
theorem isIdentifier_seed_iff {r : SymbolRef} : Text.isIdentifier (seed r) = true ↔ r.IsSpellable := by
  have hkept : ∀ c, Text.isNameContinue (if Text.isWord c then c else '_') = true ↔ (Text.isWord c = true → Text.isNameContinue c = true) := by
    intro c
    by_cases hword : Text.isWord c = true
    · rw [if_pos hword]
      exact ⟨fun h _ => h, fun h => h hword⟩
    · rw [if_neg hword]
      exact iff_of_true (by decide) fun h => absurd h hword
  have hall : ∀ cs : List Char, (∀ x ∈ cs.map fun c => if Text.isWord c then c else '_', Text.isNameContinue x = true) ↔
      ∀ c ∈ cs, Text.isWord c = true → Text.isNameContinue c = true := by
    intro cs
    rw [List.forall_mem_map]
    exact forall₂_congr fun c _ => hkept c
  unfold seed SymbolRef.IsSpellable SymbolRef.stem
  cases hstem : r.name.toList.takeWhile (· != '#') with
  | nil =>
    refine iff_of_true (by decide) ⟨fun c hc => absurd hc List.not_mem_nil, fun c hc => ?_⟩
    cases hc
  | cons c rest =>
    have hfirst : (∀ x ∈ (c :: rest).head?, Text.isWord x = true → Text.isDigit x = true ∨ Text.isNameStart x = true) ↔
        (Text.isWord c = true → Text.isDigit c = true ∨ Text.isNameStart c = true) := by
      simp [List.head?_cons]
    rw [hfirst, List.map_cons]
    dsimp only
    by_cases hword : Text.isWord c = true
    · rw [if_pos hword]
      by_cases hdigit : Text.isDigit c = true
      · rw [if_pos hdigit, Text.isIdentifier_ofList_iff, List.forall_mem_cons, hall, List.forall_mem_cons]
        exact ⟨fun h => ⟨⟨fun _ => h.2.1, h.2.2⟩, fun _ => Or.inl hdigit⟩, fun h => ⟨by decide, h.1.1 hword, h.1.2⟩⟩
      · rw [if_neg hdigit, Text.isIdentifier_ofList_iff, hall, List.forall_mem_cons]
        exact ⟨fun h => ⟨⟨fun _ => Text.isNameContinue_of_isNameStart h.1, h.2⟩, fun _ => Or.inr h.1⟩,
          fun h => ⟨(h.2 hword).resolve_left hdigit, h.1.2⟩⟩
    · rw [if_neg hword, if_neg (by decide), Text.isIdentifier_ofList_iff, hall, List.forall_mem_cons]
      exact ⟨fun h => ⟨⟨fun hc => absurd hc hword, h.2⟩, fun hc => absurd hc hword⟩, fun h => ⟨by decide, h.1.2⟩⟩

/-- So it does if the last part of its qualified name is one. -/
theorem isIdentifier_seed {r : SymbolRef} (h : Text.isIdentifier r.name = true) : Text.isIdentifier (seed r) = true := by
  refine isIdentifier_seed_iff.2 ⟨fun c hc _ => Text.isNameContinue_of_mem h ((List.takeWhile_subset _) hc), fun c hc _ => Or.inr ?_⟩
  unfold Text.isIdentifier at h
  unfold SymbolRef.stem at hc
  cases hname : r.name.toList with
  | nil =>
    rw [hname] at h
    cases h
  | cons first others =>
    rw [hname] at h hc
    dsimp only at h
    rw [Bool.and_eq_true] at h
    rw [List.takeWhile_cons] at hc
    split at hc
    · cases hc
      exact h.1
    · cases hc

theorem isIdentifier_nth_iff {name : String} (hname : name ≠ "") (n : Nat) :
    Text.isIdentifier (nth name n) = true ↔ Text.isIdentifier name = true := by
  unfold nth
  split
  · rfl
  · rw [String.append_assoc, Text.isIdentifier_append_iff hname]
    refine and_iff_left fun c hc => ?_
    rw [String.toList_append] at hc
    rcases List.mem_append.1 hc with hc | hc
    · rw [List.mem_singleton.1 hc]
      decide
    · exact Text.isNameContinue_toString n c hc

/-- No name that is tried has a dot in it. -/
theorem undotted_nth (r : SymbolRef) (n : Nat) : '.' ∉ (nth (seed r) n).toList := by
  have hseed : '.' ∉ (seed r).toList := fun h => absurd (isWord_of_mem_seed h) (by decide)
  unfold nth
  split
  · exact hseed
  · rw [String.toList_append, String.toList_append, List.mem_append, List.mem_append, not_or, not_or]
    exact ⟨⟨hseed, by decide⟩, fun h => absurd (Text.isNameContinue_toString n '.' h) (by decide)⟩

end Alias

namespace Blueprint

/-- The first field records the contributors, and no other member takes its place. -/
def Records (b : Blueprint) : Prop :=
  (∃ base mixins sets rest, b.fields = Fields.reserved base mixins sets :: rest ∧ ∀ f ∈ rest, f.name ≠ reservedField) ∧
    reservedField ∉ b.memberNames

/-- A blueprint that is built of some contributors. -/
def IsBuilt (b : Blueprint) : Prop :=
  ∃ (σ : Type) (p : Provider σ) (d : Defaults) (strict : Bool) (q : Request) (t t' : Planning σ),
    (build p d strict q).runFrom t = (.ok b, t')

variable {b : Blueprint}

/-- The composite has the name that is asked for. -/
theorem name_of_build {σ : Type} {p : Provider σ} {d : Defaults} {strict : Bool} {q : Request} {t t' : Planning σ}
    (h : (build p d strict q).runFrom t = (.ok b, t')) : b.name = q.name := by
  obtain ⟨o, u, claims, ho, -, rfl⟩ := build_eq_ok h
  exact (outline_eq_ok p.keeps_trivial trivial ho).headerName

namespace IsBuilt

variable (h : b.IsBuilt)

include h

theorem exists_claims : ∃ o claims, b = ofClaims o claims := by
  obtain ⟨σ, p, d, strict, q, t, t', h⟩ := h
  obtain ⟨o, u, claims, -, -, rfl⟩ := build_eq_ok h
  exact ⟨o, claims, rfl⟩

theorem distinct : (b.symbols.map Prod.fst).Nodup := by
  obtain ⟨o, claims, rfl⟩ := h.exists_claims
  exact nodup_keys_symbolsOf claims

theorem aliased {e : String × SymbolRef} (he : e ∈ b.symbols) : ∃ name, b.aliases.get? e.1 = some name := by
  obtain ⟨o, claims, rfl⟩ := h.exists_claims
  have hkey : e.1 ∈ (ofClaims o claims).aliases.keys := mem_keys_ofClaims.2 (List.mem_map_of_mem he)
  rw [← Entries.has_iff_mem_keys] at hkey
  exact Option.isSome_iff_exists.1 hkey

theorem injective {path other name : String} (h₁ : b.aliases.get? path = some name) (h₂ : b.aliases.get? other = some name) :
    path = other := by
  obtain ⟨o, claims, rfl⟩ := h.exists_claims
  exact Alias.assign_injective h₁ h₂

/-- No name is reserved. -/
theorem fresh {path name : String} (hname : b.aliases.get? path = some name) :
    name ∉ reservedNames b.name b.fields b.methods := by
  obtain ⟨o, claims, rfl⟩ := h.exists_claims
  exact (Alias.assign_fresh hname).1

/-- Every name is tried for a symbol of its path, and is no reserved word. -/
theorem tried {e : String × SymbolRef} (he : e ∈ b.symbols) {name : String} (hname : b.aliases.get? e.1 = some name) :
    (∃ n, name = Alias.nth (Alias.seed e.2) n) ∧ name ∉ Text.reservedWords := by
  obtain ⟨o, claims, rfl⟩ := h.exists_claims
  refine ⟨?_, (Alias.assign_fresh hname).2⟩
  obtain ⟨r, hr, hpath, hn⟩ := Alias.assign_tried hname
  obtain ⟨e', he', rfl⟩ := List.mem_map.1 hr
  have hsame : e' = e := by
    refine List.inj_on_of_nodup_map (nodup_keys_symbolsOf claims) he' he ?_
    rw [← path_of_mem_symbolsOf he', hpath]
  rwa [← hsame]

/-- The name of a symbol can be written, if the last part of its qualified name can. -/
theorem isFreeName_alias {e : String × SymbolRef} (he : e ∈ b.symbols) {name : String} (hname : b.aliases.get? e.1 = some name)
    (hlast : Text.isIdentifier e.2.name = true) : Text.isFreeName name = true := by
  obtain ⟨⟨n, rfl⟩, hfree⟩ := h.tried he hname
  have hreserved : Text.isReserved (Alias.nth (Alias.seed e.2) n) = false := by
    rw [Text.isReserved, List.contains_eq_mem, decide_eq_false_iff_not]
    exact hfree
  rw [Text.isFreeName, (Alias.isIdentifier_nth_iff (Alias.seed_ne_empty _) n).2 (Alias.isIdentifier_seed hlast), hreserved]
  rfl

theorem nodup_memberNames : b.memberNames.Nodup := by
  obtain ⟨σ, p, d, strict, q, t, t', h⟩ := h
  obtain ⟨o, u, claims, ho, -, rfl⟩ := build_eq_ok h
  exact (outline_eq_ok p.keeps_trivial trivial ho).names

/-- The record of the contributors stands as long as no method takes its place. -/
theorem records (unrecorded : reservedField ∉ b.memberNames) : b.Records := by
  obtain ⟨σ, p, d, strict, q, t, t', h⟩ := h
  obtain ⟨o, u, claims, ho, -, rfl⟩ := build_eq_ok h
  obtain ⟨copied, hfields, hcopied⟩ := (outline_eq_ok p.keeps_trivial trivial ho).fields
  exact ⟨⟨_, _, _, copied, hfields, fun f hf => (hcopied f hf).1⟩, unrecorded⟩

end IsBuilt

end Blueprint

end Amalgam
