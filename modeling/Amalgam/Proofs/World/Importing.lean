import Amalgam.Proofs.Source.Prelude
import Amalgam.Proofs.World.Loading

/-!
# Importing in alike worlds

What a symbol stands for is what its module holds, so it is the same wherever that module is loaded under its name. The
code of a module imports that same object, unless the module has taken the name (`World.importedBy_importLine`).
-/

namespace Amalgam.World

variable {w : World} {r : SymbolRef} {v : Value}

/-- A module is found where it is loaded, and nowhere else. -/
theorem findModule_eq_ok {fuel id : Nat} {name : String} :
    w.findModule (fuel + 1) name = .ok id ↔ w.loaded.get? name = some id := by
  rw [findModule]
  cases w.loaded.get? name with
  | some found => exact ⟨fun h => (by cases h; rfl), fun h => (by cases h; rfl)⟩
  | none =>
    refine iff_of_false (fun h => ?_) (fun h => by cases h)
    dsimp only at h
    split at h
    · cases h
    · obtain ⟨parent, -, h⟩ := Outcome.bind_eq_ok.1 h
      split at h <;> cases h

theorem importSymbol_eq_ok : w.importSymbol r = .ok v ↔
    (r.importable = true ∧ r.home.isEmpty = false ∧ r.home.startsWith "." = false) ∧
      ∃ id, w.loaded.get? r.home = some id ∧ w.findIn id r.qualname = .ok v := by
  unfold importSymbol
  cases r.importable with
  | false => exact iff_of_false (fun h => by cases h) fun h => by cases h.1.1
  | true =>
    cases r.home.isEmpty with
    | true => exact iff_of_false (fun h => by cases h) fun h => by cases h.1.2.1
    | false =>
      cases r.home.startsWith "." with
      | true => exact iff_of_false (fun h => by cases h) fun h => by cases h.1.2.2
      | false =>
        simp only [Bool.not_true, Bool.false_eq_true, if_false, and_self, true_and]
        rw [Outcome.mapError_eq_ok, Outcome.bind_eq_ok]
        simp only [findModule_eq_ok]

theorem follow_reloaded (w : World) (modules : Array Module) (loaded : Entries Nat) (v : Value) (path : List String) :
    (w.reloaded modules loaded).follow v path = w.follow v path := by
  induction path generalizing v with
  | nil => rfl
  | cons name rest ih =>
    rw [follow, follow, show (w.reloaded modules loaded).plainAttribute? v name = w.plainAttribute? v name from rfl]
    cases w.plainAttribute? v name with
    | none => rfl
    | some x => exact ih x

/-- What a module holds does not depend on the other modules. -/
theorem findIn_reloaded {modules : Array Module} {id : Nat} (loaded : Entries Nat) (h : modules[id]? = w.modules[id]?)
    (qualname : String) : (w.reloaded modules loaded).findIn id qualname = w.findIn id qualname := by
  unfold findIn
  rw [show (w.reloaded modules loaded).modules[id]? = w.modules[id]? from h]
  simp only [follow_reloaded]

/-- Where the module of a symbol stays loaded, the symbol stands for what it stood for. -/
theorem importSymbol_reloaded {modules : Array Module} {loaded : Entries Nat} (h : w.importSymbol r = .ok v)
    (hloaded : loaded.get? r.home = w.loaded.get? r.home)
    (hmodules : ∀ id, w.loaded.get? r.home = some id → id < w.modules.size → modules[id]? = w.modules[id]?) :
    (w.reloaded modules loaded).importSymbol r = .ok v := by
  obtain ⟨hform, id, hid, hfound⟩ := importSymbol_eq_ok.1 h
  have hlt : id < w.modules.size := by
    by_contra hge
    rw [findIn, Array.getElem?_eq_none (Nat.le_of_not_lt hge)] at hfound
    cases hfound
  refine importSymbol_eq_ok.2 ⟨hform, id, ?_, ?_⟩
  · rw [show (w.reloaded modules loaded).loaded = loaded from rfl, hloaded, hid]
  · rw [findIn_reloaded loaded (hmodules id hid hlt), hfound]

/-- The import of a symbol gives what the symbol stands for, in any module but that of the symbol. -/
theorem importedBy_importLine (h : w.importSymbol r = .ok v) {m : Module} (abroad : r.home ≠ m.name)
    (hqualname : ∀ part ∈ Text.splitOnChar '.' r.qualname, Text.isFreeName part = true)
    (composed : Text.isComposed r.home = true ∧ Text.isComposed r.qualname = true) (name : String) :
    (w.withModule m).importedBy (Source.importLine r name) = .ok v := by
  have himport : (w.withModule m).importSymbol r = .ok v :=
    importSymbol_reloaded h (Entries.get?_put_of_ne _ _ abroad) fun id _ hlt => by
      rw [Array.getElem?_push_lt hlt, Array.getElem?_eq_getElem hlt]
  obtain ⟨-, id, hid, hfound⟩ := importSymbol_eq_ok.1 himport
  unfold importedBy
  dsimp only
  rw [(Source.qualname_importLine hqualname).2.2, show (Source.importLine r name).home = r.home from rfl, composed.1,
    composed.2, if_neg (by decide), Outcome.mapError_eq_ok, Outcome.bind_eq_ok]
  exact ⟨id, findModule_eq_ok.2 hid, hfound⟩

end Amalgam.World
