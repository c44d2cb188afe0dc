import Amalgam.Entries
import Amalgam.Failure

/-!
Providers: where a plan learns of the contributing classes.

A provider turns whatever names a class into a reference and serves the manifest of a reference. It may keep a state of
its own, which also survives a failed question. `Provider.ofManifests` serves given manifests and keeps none.
-/

namespace Amalgam

/-- An operation that may change a state and fail; what it changed before it failed stays changed. -/
abbrev Act (σ α : Type) := ExceptT Failure (StateM σ) α

namespace Act

variable {σ τ α : Type}

/-- Refuses the input. -/
def refuse (cause : Refusal) : Act σ α := throw (.refusal cause)

/-- Runs an operation on a part of a larger state. -/
def within (get : τ → σ) (put : σ → τ → τ) (act : Act σ α) : Act τ α := fun t =>
  let (r, s) := act.run.run (get t)
  (r, put s t)

/-- Runs an operation from a state: the outcome and the state left. -/
def runFrom (act : Act σ α) (s : σ) : Except Failure α × σ := act.run.run s

/-- An outcome that is already known. -/
def ofExcept (r : Except Failure α) : Act σ α := fun s => (r, s)

variable {β : Type}

@[simp] theorem runFrom_pure (a : α) (s : σ) : (pure a : Act σ α).runFrom s = (.ok a, s) := rfl

@[simp] theorem runFrom_throw (e : Failure) (s : σ) : (throw e : Act σ α).runFrom s = (.error e, s) := rfl

@[simp] theorem runFrom_refuse (cause : Refusal) (s : σ) :
    (refuse cause : Act σ α).runFrom s = (.error (.refusal cause), s) := rfl

@[simp] theorem runFrom_ofExcept (r : Except Failure α) (s : σ) : (ofExcept r).runFrom s = (r, s) := rfl

@[simp] theorem runFrom_get (s : σ) : (get : Act σ σ).runFrom s = (.ok s, s) := rfl

@[simp] theorem runFrom_set (s t : σ) : (set t : Act σ PUnit).runFrom s = (.ok ⟨⟩, t) := rfl

@[simp] theorem runFrom_modify (f : σ → σ) (s : σ) : (modify f : Act σ PUnit).runFrom s = (.ok ⟨⟩, f s) := rfl

theorem runFrom_within (get : τ → σ) (put : σ → τ → τ) (act : Act σ α) (t : τ) :
    (within get put act).runFrom t = ((act.runFrom (get t)).1, put (act.runFrom (get t)).2 t) := rfl

theorem runFrom_bind (x : Act σ α) (f : α → Act σ β) (s : σ) :
    (x >>= f).runFrom s = match x.runFrom s with
      | (.ok a, t) => (f a).runFrom t
      | (.error e, t) => (.error e, t) := by
  show (ExceptT.run (x >>= f)).run s = _
  rw [ExceptT.run_bind, StateT.run_bind]
  unfold runFrom
  generalize x.run.run s = r
  obtain ⟨r, t⟩ := r
  cases r <;> rfl

/-- A sequence succeeds exactly when both of its parts do, the second from where the first ends. -/
theorem bind_eq_ok {x : Act σ α} {f : α → Act σ β} {s t : σ} {b : β} :
    (x >>= f).runFrom s = (.ok b, t) ↔ ∃ a u, x.runFrom s = (.ok a, u) ∧ (f a).runFrom u = (.ok b, t) := by
  rw [runFrom_bind]
  obtain ⟨r, u⟩ := x.runFrom s
  cases r with
  | error e => simp
  | ok a => exact ⟨fun h => ⟨a, u, rfl, h⟩, fun ⟨_, _, h, h'⟩ => by cases h; exact h'⟩

end Act

/-- A live object that generated code may refer to. -/
inductive Handle where
  | cls (id : Nat)
  | function (id : Nat)
  deriving DecidableEq, Repr

/-- What a caller may give for a class. -/
inductive TypeLike where
  | text (path : String)
  | ref (r : SymbolRef)
  /-- A live class and the reference it has of itself. -/
  | live (id : Nat) (r : SymbolRef)
  /-- No class at all. -/
  | other (shown : String)
  deriving DecidableEq, Repr

/-- A source of references and manifests, with its state. -/
structure Provider (σ : Type) where
  resolve : TypeLike → Act σ SymbolRef
  manifest : SymbolRef → Act σ Manifest
  /-- The live object behind a reference, where there is one. -/
  binding : SymbolRef → σ → Option Handle

namespace Provider

variable {σ : Type}

/-- The reference written by a text. -/
def parse (text : String) : Act σ SymbolRef :=
  match SymbolRef.parse? text with
  | some r => pure r
  | none => Act.refuse (.badReference text)

/-- The signature of one member. -/
def signature (p : Provider σ) (r : SymbolRef) (name : String) : Act σ Signature := do
  match (← p.manifest r).member? name with
  | some s => pure s
  | none => Act.refuse (.noMember r.path name)

/-- The capability sets of a class. -/
def capabilitySets (p : Provider σ) (r : SymbolRef) : Act σ (List SymbolRef) := do
  return (← p.manifest r).capabilitySets

/-- The members that may be taken from a class in a role. -/
def eligibleMembers (p : Provider σ) (r : SymbolRef) (role : Role) : Act σ (List Signature) := do
  return (← p.manifest r).eligibleMembers role

/-- The manifests by the paths of their classes, the last one of a path counting. -/
def table (ms : List Manifest) : Entries Manifest := Entries.ofList (ms.map fun m => (m.ref.path, m))

/-- The reference that a caller's class stands for, whether served or not. -/
def refOf : TypeLike → Act σ SymbolRef
  | .text path => parse path
  | .ref r => pure r
  | .live _ r => pure r
  | .other shown => Act.refuse (.noReference shown)

/-- Serves the given manifests and knows of no other class. -/
def ofManifests (ms : List Manifest) : Provider Unit where
  resolve t := do
    let r ← refOf t
    if (table ms).has r.path then pure r else Act.refuse (.noManifest r.path)
  manifest r :=
    match (table ms).get? r.path with
    | some m => pure m
    | none => Act.refuse (.noManifest r.path)
  binding _ _ := none

end Provider

end Amalgam
