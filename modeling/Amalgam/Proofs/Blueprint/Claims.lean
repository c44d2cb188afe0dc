import Amalgam.Proofs.Source.Closure

/-!
# Whose a path is

Several symbols of a plan may claim one path. The first claim says what reference the path has, and the first claim of a
live object which object it has (`get?_symbolsOf`, `get?_bindingsOf`). The contributors claim first, then the functions
that methods join their results with, then what generated code relies on; so `Outline.Holds` says which object the path of
such a function comes to stand for.
-/

namespace Amalgam.Blueprint

/-! ## The first claim counts -/

theorem get?_symbolsOf (claims : Claims) (path : String) :
    (symbolsOf claims).get? path = (claims.find? fun c => c.1.path = path).map Prod.fst := by
  suffices ∀ t : Entries SymbolRef, (claims.foldl (fun t c => t.putNew c.1.path c.1) t).get? path =
      (t.get? path).or ((claims.find? fun c => c.1.path = path).map Prod.fst) by
    exact this []
  induction claims with
  | nil => intro t; simp
  | cons c claims ih =>
    intro t
    rw [List.foldl_cons, ih, Entries.get?_putNew, Option.or_assoc]
    by_cases h : c.1.path = path <;> simp [h]

theorem get?_bindingsOf (claims : Claims) (path : String) :
    (bindingsOf claims).get? path = claims.findSome? fun c => if c.1.path = path then c.2 else none := by
  unfold bindingsOf
  show _ = (Entries.get? ([] : Entries Handle) path).or (claims.findSome? fun c => if c.1.path = path then c.2 else none)
  generalize ([] : Entries Handle) = t
  induction claims generalizing t with
  | nil => simp
  | cons c claims ih =>
    rw [List.foldl_cons, ih]
    obtain ⟨r, _ | handle⟩ := c
    · simp
    · rw [Entries.get?_putNew, Option.or_assoc]
      by_cases h : r.path = path <;> simp [h]

/-- Symbols stand in the table in the order of their keys, each key once. -/
theorem nodup_keys_symbolsOf (claims : Claims) : (symbolsOf claims).keys.Nodup := by
  suffices ∀ t : Entries SymbolRef, t.keys.Nodup → (claims.foldl (fun t c => t.putNew c.1.path c.1) t).keys.Nodup by
    exact this [] List.nodup_nil
  induction claims with
  | nil => exact fun t h => h
  | cons c claims ih =>
    intro t h
    exact ih _ (Entries.nodup_keys_putNew h _ _)

/-! ## The claims on the path of a combination function -/

variable {σ : Type} {p : Provider σ} {d : Defaults} {o : Outline} {s : σ} {claims : Claims} {f : String}

/-- The claims of a path that are all the same give that one. -/
theorem findSome?_of_forall {claims : Claims} {binding : Option Handle}
    (hall : ∀ c ∈ claims, c.1.path = f → c.2 = binding) (hex : ∃ c ∈ claims, c.1.path = f) :
    (claims.findSome? fun c => if c.1.path = f then c.2 else none) = binding := by
  induction claims with
  | nil =>
    obtain ⟨c, hc, -⟩ := hex
    cases hc
  | cons c claims ih =>
    rw [List.findSome?_cons]
    by_cases hc : c.1.path = f
    · rw [if_pos hc, hall c List.mem_cons_self hc]
      cases hb : binding with
      | some handle => rfl
      | none =>
        dsimp only
        rw [List.findSome?_eq_none_iff]
        intro c' hc'
        split
        · rename_i hpath
          rw [hall c' (List.mem_cons_of_mem _ hc') hpath, hb]
        · rfl
    · rw [if_neg hc]
      obtain ⟨c', hc', hpath⟩ := hex
      rcases List.mem_cons.1 hc' with rfl | hc'
      · exact absurd hpath hc
      · exact ih (fun c hc => hall c (List.mem_cons_of_mem _ hc)) ⟨c', hc', hpath⟩

/-- A path that is read last by some spec is the path of that spec. -/
theorem path_of_specsByPath {specs : Entries CombinatorSpec} {s : CombinatorSpec}
    (h : (specsByPath specs).get? f = some s) : s.function.path = f ∧ ∃ member, (member, s) ∈ specs := by
  have hmem := (Entries.mem_foldl_put (Entries.mem_of_get? h)).resolve_left List.not_mem_nil
  obtain ⟨e, he, heq⟩ := List.mem_map.1 hmem
  rw [Prod.mk.injEq] at heq
  obtain ⟨hpath, rfl⟩ := heq
  exact ⟨hpath, e.1, he⟩

/-- All methods that join their results with the function of a path claim that path alike. -/
theorem joined_claims {methods : List MethodDef} {specs : Entries CombinatorSpec} {joined : Claims}
    (h : combinatorClaims specs methods = .ok joined) {m : MethodDef} (hm : m ∈ methods) {targets : List MemberCall}
    (hcore : m.core = .combine f targets) : ∃ s, (specsByPath specs).get? f = some s ∧
      (∃ c ∈ joined, c.1.path = f) ∧ ∀ c ∈ joined, c.1.path = f → c = (s.function, s.binding) := by
  obtain ⟨parts, hparts, h⟩ := Outcome.bind_eq_ok.1 h
  cases h
  have hall := Outcome.mapM_eq_ok.1 hparts
  obtain ⟨part, hpart, hclaim⟩ := Outcome.exists_mem_of_forall₂ hall hm
  unfold combinatorClaim at hclaim
  rw [hcore] at hclaim
  dsimp only at hclaim
  cases hs : (specsByPath specs).get? f with
  | none =>
    rw [hs] at hclaim
    cases hclaim
  | some s =>
    rw [hs] at hclaim
    cases hclaim
    refine ⟨s, rfl, ⟨_, List.mem_flatten.2 ⟨_, hpart, List.mem_singleton_self _⟩, (path_of_specsByPath hs).1⟩, ?_⟩
    intro c hc hpath
    obtain ⟨part', hpart', hc⟩ := List.mem_flatten.1 hc
    obtain ⟨m', -, hclaim⟩ := Outcome.exists_mem_of_forall₂ hall.flip hpart'
    change combinatorClaim specs m' = .ok part' at hclaim
    unfold combinatorClaim at hclaim
    split at hclaim
    · rename_i f' targets' hcore'
      split at hclaim
      · rename_i s' hs'
        cases hclaim
        obtain rfl := List.mem_singleton.1 hc
        have hf : f' = f := (path_of_specsByPath hs').1.symm.trans hpath
        subst hf
        rw [hs] at hs'
        cases hs'
        rfl
      · cases hclaim
    · cases hclaim
      cases hc

end Amalgam.Blueprint
