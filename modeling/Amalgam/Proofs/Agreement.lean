import Amalgam.Provider

/-!
# Operations that agree

Two operations agree on some states if they have the same outcome from each of them. Sequences agree if their parts do and
the first of them stays among these states. Where an operation lands is a bound on all of its outcomes.
-/

namespace Amalgam.Act

variable {σ α β : Type} {Inv : σ → Prop}

/-- From the given states, both operations end in the same way. -/
def Agree (Inv : σ → Prop) (x y : Act σ α) : Prop := ∀ s, Inv s → x.runFrom s = y.runFrom s

/-- The operation leaves the given states for no others, even if it fails. -/
def Keeps (Inv : σ → Prop) (x : Act σ α) : Prop := ∀ s, Inv s → Inv (x.runFrom s).2

theorem Agree.refl (x : Act σ α) : Agree Inv x x := fun _ _ => rfl

theorem Agree.symm {x y : Act σ α} (h : Agree Inv x y) : Agree Inv y x := fun s hs => (h s hs).symm

theorem Agree.trans {x y z : Act σ α} (h : Agree Inv x y) (h' : Agree Inv y z) : Agree Inv x z :=
  fun s hs => (h s hs).trans (h' s hs)

theorem Agree.bind {x y : Act σ α} {f g : α → Act σ β} (h : Agree Inv x y) (keeps : Keeps Inv y)
    (hf : ∀ a, Agree Inv (f a) (g a)) : Agree Inv (x >>= f) (y >>= g) := by
  intro s hs
  rw [runFrom_bind, runFrom_bind, h s hs]
  have hk := keeps s hs
  generalize y.runFrom s = r at hk
  obtain ⟨r, t⟩ := r
  cases r with
  | error e => rfl
  | ok a => exact hf a t hk

/-- A known value may stand for the operation that gives it. -/
theorem Agree.bind_pure {x : Act σ α} {a : α} {f : α → Act σ β} {y : Act σ β} (h : Agree Inv x (pure a))
    (hf : Agree Inv (f a) y) : Agree Inv (x >>= f) y := by
  intro s hs
  rw [runFrom_bind, h s hs, runFrom_pure]
  exact hf s hs

theorem keeps_pure (a : α) : Keeps Inv (pure a : Act σ α) := fun _ hs => hs

theorem Keeps.bind {x : Act σ α} {f : α → Act σ β} (hx : Keeps Inv x) (hf : ∀ a, Keeps Inv (f a)) :
    Keeps Inv (x >>= f) := by
  intro s hs
  rw [runFrom_bind]
  have hk := hx s hs
  generalize x.runFrom s = r at hk
  obtain ⟨r, t⟩ := r
  cases r with
  | error e => exact hk
  | ok a => exact hf a t hk

theorem Keeps.mapM {f : α → Act σ β} {as : List α} (h : ∀ a ∈ as, Keeps Inv (f a)) : Keeps Inv (as.mapM f) := by
  induction as with
  | nil => exact keeps_pure _
  | cons a as ih =>
    rw [List.mapM_cons]
    refine (h a List.mem_cons_self).bind fun b => ?_
    exact (ih fun x hx => h x (List.mem_cons_of_mem _ hx)).bind fun bs => keeps_pure _

/-! ## Where an operation lands -/

variable {P : α → Prop} {Q : β → Prop} {err : Failure → Prop}

/-- The operation ends in a value of some kind, or in a failure of some kind, wherever it starts. -/
def Lands (P : α → Prop) (err : Failure → Prop) (x : Act σ α) : Prop :=
  ∀ s, match (x.runFrom s).1 with
    | .ok a => P a
    | .error e => err e

theorem lands_pure {a : α} (h : P a) : Lands P err (pure a : Act σ α) := fun _ => h

theorem lands_throw {e : Failure} (h : err e) : Lands P err (throw e : Act σ α) := fun _ => h

theorem Lands.bind {x : Act σ α} {f : α → Act σ β} (hx : Lands P err x) (hf : ∀ a, P a → Lands Q err (f a)) :
    Lands Q err (x >>= f) := by
  intro s
  rw [runFrom_bind]
  have hs := hx s
  generalize x.runFrom s = r at hs
  obtain ⟨r, t⟩ := r
  cases r with
  | error e => exact hs
  | ok a => exact hf a hs t

theorem Lands.mono {P' : α → Prop} {err' : Failure → Prop} {x : Act σ α} (h : Lands P err x) (hP : ∀ a, P a → P' a)
    (herr : ∀ e, err e → err' e) : Lands P' err' x := by
  intro s
  have hs := h s
  generalize (x.runFrom s).1 = r at hs
  cases r with
  | error e => exact herr e hs
  | ok a => exact hP a hs

theorem lands_foldlM {f : α → β → Act σ α} {bs : List β} (h : ∀ a b, b ∈ bs → P a → Lands P err (f a b)) {a : α}
    (ha : P a) : Lands P err (bs.foldlM f a) := by
  induction bs generalizing a with
  | nil => exact lands_pure ha
  | cons b bs ih =>
    rw [List.foldlM_cons]
    refine (h a b List.mem_cons_self ha).bind fun a' ha' => ?_
    exact ih (fun a b hb => h a b (List.mem_cons_of_mem _ hb)) ha'

end Amalgam.Act
