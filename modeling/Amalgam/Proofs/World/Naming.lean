import Amalgam.Proofs.World.Bases

/-!
# The names of live classes settle

A provider of live classes names a class by the first of its own reference and the numbered variants of it that stands for
no other class (`Roster.choose_first`). Paths never go over to another class, so whatever the provider is asked, and whatever
the modules of the program stand for by then, the name of a class object is its name ever after, no other class object gets
it, and the capability sets in a manifest go by it too (`Roster.names_settle`).
-/

namespace Amalgam

/-- What can be imported at a time: modules, and the names under which they are loaded. -/
structure Importables where
  modules : Array Module
  loaded : Entries Nat

/-- A program whose modules have changed. -/
def World.importing (w : World) (now : Importables) : World := { w with modules := now.modules, loaded := now.loaded }

/-- A call of a provider, with what can be imported at the time. -/
inductive Roster.Question where
  | resolve (now : Importables) (t : TypeLike)
  | manifest (now : Importables) (r : SymbolRef)
  | capabilitySets (now : Importables) (r : SymbolRef)

namespace Roster

variable {w : World} {c d : Roster}

/-- What a provider remembers after one more call, answered or not. -/
def asked (w : World) (c : Roster) : Question → Roster
  | .resolve now t => (((Provider.live (w.importing now)).resolve t).runFrom c).2
  | .manifest now r => (((Provider.live (w.importing now)).manifest r).runFrom c).2
  | .capabilitySets now r => (((Provider.live (w.importing now)).capabilitySets r).runFrom c).2

/-- What it remembers after any number of calls. -/
def askedAll (w : World) (c : Roster) (calls : List Question) : Roster := calls.foldl (asked w) c

/-! ## One call -/

/-- To ask for capability sets is to ask for the manifest. -/
theorem after_capabilitySets (w : World) (r : SymbolRef) (c : Roster) :
    (((Provider.live w).capabilitySets r).runFrom c).2 = ((manifest w r).runFrom c).2 := by
  have hrun : ((Provider.live w).capabilitySets r).runFrom c = (manifest w r >>= fun m => pure m.capabilitySets).runFrom c := rfl
  rw [hrun, Act.runFrom_bind]
  generalize (manifest w r).runFrom c = done
  obtain ⟨outcome, u⟩ := done
  cases outcome <;> rfl

theorem knows_after_manifest (h : c.Knows w) (r : SymbolRef) : ((manifest w r).runFrom c).2.Knows w := by
  generalize hrun : (manifest w r).runFrom c = done
  obtain ⟨outcome, u⟩ := done
  cases outcome with
  | error e => rwa [(manifest_eq_error hrun).1]
  | ok m => exact knows_manifest h hrun

/-- A call takes no path from a class, and leaves in the manifests what the provider knows. -/
theorem knows_asked (h : c.Knows w) (call : Question) : c.Extends (c.asked w call) ∧ (c.asked w call).Knows w := by
  cases call with
  | resolve now t =>
    have hext := resolve_extends (w := w.importing now) c t c (Extends.refl c)
    exact ⟨hext, h.later hext (manifests_after_resolve c t)⟩
  | manifest now r => exact ⟨manifest_extends c r c (Extends.refl c), knows_after_manifest (w := w.importing now) h r⟩
  | capabilitySets now r =>
    rw [asked, after_capabilitySets]
    exact ⟨manifest_extends c r c (Extends.refl c), knows_after_manifest (w := w.importing now) h r⟩

theorem knows_askedAll (h : c.Knows w) (calls : List Question) : c.Extends (c.askedAll w calls) ∧ (c.askedAll w calls).Knows w := by
  induction calls generalizing c with
  | nil => exact ⟨Extends.refl c, h⟩
  | cons call calls ih =>
    obtain ⟨hext, hknows⟩ := knows_asked h call
    obtain ⟨hext', hknows'⟩ := ih hknows
    exact ⟨hext.trans hext', hknows'⟩

/-! ## Claiming -/

/-- The search for a reference ends at the first that stands for no other class, and tries at most one more than are known. -/
theorem choose_first (c : Roster) (id : Nat) (r : SymbolRef) : ∃ n, 1 ≤ n ∧ n ≤ c.classes.length + 1 ∧
    c.choose id r = nthRef r n ∧ (∀ other, c.classes.get? (nthRef r n).path = some other → other = id) ∧
      ∀ k, 1 ≤ k → k < n → ∃ other, other ≠ id ∧ c.classes.get? (nthRef r k).path = some other := by
  refine ⟨_, le_firstFree _ _ 1, ?_, choose_eq c id r, fun other hother => ?_, fun k hk hlt => ?_⟩
  · have := firstFree_le (fun n => (c.classes.get? (nthRef r n).path).all (· == id)) c.classes.length 1
    omega
  · exact choose_free c id r (by rwa [choose_eq])
  · have htaken := not_free_of_lt_firstFree _ _ 1 k hk hlt
    cases hget : c.classes.get? (nthRef r k).path with
    | none => simp [hget] at htaken
    | some other => exact ⟨other, by simpa [hget] using htaken, rfl⟩

/-- A class object is claimed, and its path stands for it. -/
theorem resolve_live_eq_ok {id : Nat} {own r : SymbolRef} (h : ((Provider.live w).resolve (.live id own)).runFrom c = (.ok r, d)) :
    c.Extends d ∧ r = d.refTo w id ∧ d.Claims w id := by
  have h : (claim w id).runFrom c = (.ok r, d) := h
  exact ⟨(claim_eq_ok h).1, claims_of_claim h⟩

/-- A class that has a reference is resolved to it, and nothing changes. -/
theorem resolve_live_of_claims {id : Nat} (h : c.Claims w id) (own : SymbolRef) :
    ((Provider.live w).resolve (.live id own)).runFrom c = (.ok (c.refTo w id), c) := by
  show (Except.ok (c.refTo w id), { c with classes := c.classes.put (c.refTo w id).path id }) = _
  rw [(Entries.put_eq_self_iff _ _ _).2 h]

theorem binding_of_claims {id : Nat} (h : c.Claims w id) :
    (Provider.live w).binding (c.refTo w id) c = some (.cls id) :=
  congrArg (Option.map Handle.cls) h

/-- The sets that are told of a class are the references that the sets themselves have. -/
theorem capabilitySets_eq_ok {r : SymbolRef} {sets : List SymbolRef} (h : c.Knows w)
    (hrun : ((Provider.live w).capabilitySets r).runFrom c = (.ok sets, d)) : ∃ id, c.Extends d ∧
      d.classes.get? r.path = some id ∧ sets = (w.capabilityAncestors id).map (d.refTo w) ∧ d.ClaimsAbove w id := by
  obtain ⟨m, u, hm, hdone⟩ := Act.bind_eq_ok.1 hrun
  cases hdone
  have hm : (manifest w r).runFrom c = (.ok m, d) := hm
  have hext : c.Extends d := by
    have := manifest_extends (w := w) c r c (Extends.refl c)
    rwa [hm] at this
  obtain ⟨id, hid, hsets, habove⟩ := knows_manifest h hm _ _ (get?_of_manifest hm)
  exact ⟨id, hext, hid, hsets, habove⟩

/-- Sets that have their references keep them, each the one that it is resolved to itself. -/
theorem resolves_of_claimsAbove {id : Nat} (h : c.ClaimsAbove w id) (later : c.Extends d) :
    List.Forall₂ (fun a r => ∀ own, ((Provider.live w).resolve (.live a own)).runFrom d = (.ok r, d))
      (w.capabilityAncestors id) ((w.capabilityAncestors id).map (c.refTo w)) := by
  rw [List.forall₂_map_right_iff, List.forall₂_same]
  intro a ha own
  obtain ⟨hsame, hclaims⟩ := (h a ha).later later
  rw [← hsame]
  exact resolve_live_of_claims hclaims own

/--
The names of live classes. In any state of a provider, the search for a reference of a class object ends, after at most one
try more than there are known paths: at the first of its own reference and the numbered variants of it that stands for no
other class. Now let a new provider be called any number of times, for references, manifests and capability sets, while the
modules of the program change as they like. Then no later call takes a path from the class that it stands for. The reference
that a class object is resolved to is bound to the class; it is what the class object is resolved to ever after; and no other
class object is resolved to one of the same path. The capability sets told of a class are the references that the set
classes, as class objects, are resolved to ever after.
-/
theorem names_settle (w : World) (history later : List Question) :
    let c := askedAll w {} history
    (∀ (s : Roster) (id : Nat), ∃ n s', 1 ≤ n ∧ n ≤ s.classes.length + 1 ∧
        (∀ k, 1 ≤ k → k < n → ∃ other, other ≠ id ∧ s.classes.get? (nthRef (w.refOf id) k).path = some other) ∧
        (∀ other, s.classes.get? (nthRef (w.refOf id) n).path = some other → other = id) ∧
        (claim w id).runFrom s = (.ok (nthRef (w.refOf id) n), s')) ∧
      (∀ path id, c.classes.get? path = some id → (c.askedAll w later).classes.get? path = some id) ∧
      (∀ id own r c₁, ((Provider.live w).resolve (.live id own)).runFrom c = (.ok r, c₁) →
        let d := c₁.askedAll w later
        (Provider.live w).binding r c₁ = some (.cls id) ∧ (Provider.live w).binding r d = some (.cls id) ∧
          (∀ own', ((Provider.live w).resolve (.live id own')).runFrom d = (.ok r, d)) ∧
          ∀ id' own' r' d', id' ≠ id → ((Provider.live w).resolve (.live id' own')).runFrom d = (.ok r', d') →
            r'.path ≠ r.path) ∧
      ∀ now r sets c₁, ((Provider.live (w.importing now)).capabilitySets r).runFrom c = (.ok sets, c₁) →
        ∃ id, (Provider.live w).binding r c₁ = some (.cls id) ∧
          List.Forall₂ (fun a s => ∀ own, ((Provider.live w).resolve (.live a own)).runFrom (c₁.askedAll w later) =
            (.ok s, c₁.askedAll w later)) (w.capabilityAncestors id) sets := by
  intro c
  have hnew : Knows w {} := fun path m hm => nomatch hm
  have hknows : c.Knows w := (knows_askedAll hnew history).2
  refine ⟨fun s id => ?_, (knows_askedAll hknows later).1, fun id own r c₁ hr => ?_, fun now r sets c₁ hrun => ?_⟩
  · obtain ⟨n, h1, hle, hchoose, hfree, htaken⟩ := choose_first s id (w.refOf id)
    refine ⟨n, { s with classes := s.classes.put (s.choose id (w.refOf id)).path id }, h1, hle, htaken, hfree, ?_⟩
    rw [← hchoose]
    rfl
  · obtain ⟨hext, rfl, hclaims⟩ := resolve_live_eq_ok hr
    have hknows₁ : c₁.Knows w := by
      have := (knows_asked hknows (.resolve ⟨w.modules, w.loaded⟩ (.live id own))).2
      change (((Provider.live w).resolve (.live id own)).runFrom c).2.Knows w at this
      rwa [hr] at this
    have hlater := (knows_askedAll hknows₁ later).1
    obtain ⟨hsame, hclaims'⟩ := hclaims.later hlater
    intro d
    refine ⟨binding_of_claims hclaims, ?_, fun own' => ?_, fun id' own' r' d' hne hr' hpath => hne ?_⟩
    · rw [← hsame]
      exact binding_of_claims hclaims'
    · rw [← hsame]
      exact resolve_live_of_claims hclaims' own'
    · obtain ⟨hext', rfl, hother⟩ := resolve_live_eq_ok hr'
      have hid : d'.classes.get? (c₁.refTo w id).path = some id := hext' _ _ (hlater _ _ hclaims)
      rw [← hpath, show d'.classes.get? (d'.refTo w id').path = some id' from hother] at hid
      exact Option.some.inj hid
  · obtain ⟨id, hext, hid, rfl, habove⟩ := capabilitySets_eq_ok (w := w.importing now) hknows hrun
    have hknows₁ : c₁.Knows w := by
      have := (knows_asked hknows (.capabilitySets now r)).2
      rwa [asked, hrun] at this
    refine ⟨id, congrArg (Option.map Handle.cls) hid, ?_⟩
    exact resolves_of_claimsAbove (w := w) habove (knows_askedAll hknows₁ later).1

end Roster

end Amalgam
