import Amalgam.Proofs.World.Recorded
import Amalgam.Session

/-!
# Clearing the registry

To forget a composite takes at most the name of its module, so modules of other names stay where they are
(`Session.runFrom_clear`). It fails only for a composite whose module has no file; where modules without files hold none
but older classes, a session can always be cleared (`Session.Orderly`).
-/

namespace Amalgam.Session

/--
A session whose composites are newer than what was there at the start: a number of classes, and the modules that no file
holds. Nothing sets the name or the record of a class.
-/
structure Orderly (n : Nat) (p : Session) : Prop where
  tame : World.Tame World.Settable p.world
  known : n ≤ p.world.classes.size
  foreign : ∀ m ∈ p.world.modules, m.file = none → ∀ name id, m.names.get? name = some (.cls id) → id < n
  composites : ∀ e ∈ p.composites, n ≤ e.2

variable (n : Nat) (p : Session)

/-- A class is forgotten at the cost of the name of its module. -/
theorem runFrom_forget (id : Nat) : ∃ r loaded lines,
    (forget id).runFrom p = (r, { p with world := { p.world with loaded }, lines }) ∧
      (∀ home, (p.world.cls id).home ≠ home → loaded.get? home = p.world.loaded.get? home) ∧
        (Orderly n p → n ≤ id → r = .ok ⟨⟩) := by
  unfold forget
  rw [Act.runFrom_bind, Act.runFrom_get]
  dsimp only
  split
  · exact ⟨_, p.world.loaded, p.lines, rfl, fun _ _ => rfl, fun _ _ => rfl⟩
  · rename_i m hm
    split
    · rename_i other hother
      split
      · rename_i heq
        rw [eq_of_beq heq] at hother
        have hloaded : ∀ home, (p.world.cls id).home ≠ home →
            (p.world.loaded.erase (p.world.cls id).home).get? home = p.world.loaded.get? home :=
          fun home hne => Entries.get?_erase_of_ne _ (Ne.symm hne)
        cases hfile : m.file with
        | some file => exact ⟨_, _, _, rfl, hloaded, fun _ _ => rfl⟩
        | none =>
          refine ⟨_, _, p.lines, rfl, hloaded, fun h hid => ?_⟩
          obtain ⟨k, -, hk⟩ := Option.bind_eq_some_iff.1 hm
          have hlt := h.foreign m (Array.mem_of_getElem? hk) hfile _ _ hother
          exact absurd hid (Nat.not_le_of_lt hlt)
      · exact ⟨_, p.world.loaded, p.lines, rfl, fun _ _ => rfl, fun _ _ => rfl⟩
    · exact ⟨_, p.world.loaded, p.lines, rfl, fun _ _ => rfl, fun _ _ => rfl⟩

theorem runFrom_forgets (es : Entries Nat) : ∃ r loaded lines,
    (es.forM fun e => forget e.2).runFrom p = (r, { p with world := { p.world with loaded }, lines }) ∧
      (∀ home, (∀ e ∈ es, (p.world.cls e.2).home ≠ home) → loaded.get? home = p.world.loaded.get? home) ∧
        (Orderly n p → (∀ e ∈ es, n ≤ e.2) → r = .ok ⟨⟩) := by
  induction es generalizing p with
  | nil => exact ⟨_, p.world.loaded, p.lines, rfl, fun _ _ => rfl, fun _ _ => rfl⟩
  | cons e es ih =>
    obtain ⟨r, loaded, lines, hfirst, hloaded, hok⟩ := runFrom_forget n p e.2
    obtain ⟨r', loaded', lines', hrest, hloaded', hok'⟩ := ih { p with world := { p.world with loaded }, lines }
    have hcons : ((e :: es).forM fun e => forget e.2) = (forget e.2 >>= fun _ => es.forM fun e => forget e.2) := rfl
    rw [hcons, Act.runFrom_bind, hfirst]
    cases r with
    | error cause =>
      refine ⟨_, loaded, lines, rfl, fun home hes => hloaded home (hes e List.mem_cons_self), fun h hes => ?_⟩
      exact absurd (hok h (hes e List.mem_cons_self)) (fun heq => by cases heq)
    | ok =>
      refine ⟨r', loaded', lines', hrest, fun home hes => ?_, fun h hes => ?_⟩
      · rw [hloaded' home fun e he => hes e (List.mem_cons_of_mem _ he)]
        exact hloaded home (hes e List.mem_cons_self)
      · exact hok' ⟨⟨h.tame.init, h.tame.hook, h.tame.sets⟩, h.known, h.foreign, h.composites⟩
          fun e he => hes e (List.mem_cons_of_mem _ he)

/-- A session that is cleared has no composites left; every module is still there that is of none. -/
theorem runFrom_clear : ∃ r loaded lines composites,
    clear.runFrom p = (r, { p with world := { p.world with loaded }, lines, composites }) ∧
      (∀ home, (∀ e ∈ p.composites, (p.world.cls e.2).home ≠ home) → loaded.get? home = p.world.loaded.get? home) ∧
        (r = .ok ⟨⟩ → composites = []) ∧ (Orderly n p → r = .ok ⟨⟩) := by
  obtain ⟨r, loaded, lines, hforgets, hloaded, hok⟩ := runFrom_forgets n p p.composites
  unfold clear
  rw [Act.runFrom_bind, Act.runFrom_get]
  dsimp only
  rw [Act.runFrom_bind, hforgets]
  cases r with
  | error e =>
    refine ⟨_, loaded, lines, p.composites, rfl, hloaded, fun h => (by cases h), fun h => ?_⟩
    cases hok h h.composites
  | ok => exact ⟨_, loaded, lines, [], rfl, hloaded, fun _ => rfl, fun _ => rfl⟩

end Amalgam.Session
