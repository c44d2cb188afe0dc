import Amalgam.Proofs.Session.Clearing
import Amalgam.Proofs.Session.Settling
import Amalgam.Proofs.World.Spelling

/-!
# The registry over whole runs

Whatever a call returns is registered under the name of the class, which need not be the name that was asked for
(`Session.own_name_iff`). As long as every artifact that is found serves for the composite that is asked for or does not know
its name, and nothing sets the name or the record of a class, it is that name: the class can be looked up under it, and the
name is refused, until the registry is cleared (`Session.registry_of_run`).
-/

namespace Amalgam

/-! ## Calls and runs -/

/-- A call of the library. -/
inductive Call where
  | mix (origin : Origin) (settings : Settings) (binds : Bool) (q : Request)
  | activate (settings : Settings) (binds : Bool) (b : Blueprint)
  | cache (origin : Origin) (settings : Settings) (binds : Bool) (a : Session.ArtifactRequest)
  | clear

namespace Call

open Session

/-- The name of the composite that is asked for. -/
def name? : Call → Option String
  | mix _ _ _ q => some q.name
  | activate _ _ b => some b.name
  | cache _ _ _ a => some a.request.name
  | clear => none

/-- What asks for a composite. -/
def act? : Call → Option (Act Session Nat)
  | mix origin settings binds q => some (Session.mix origin settings binds q)
  | activate settings binds b => some (Session.activate settings binds b)
  | cache origin settings binds a => some (activateFromCache origin settings binds a)
  | clear => none

/-- What a call comes to: the class that it returns, if it asks for one, and the session. -/
def run (c : Call) (p : Session) : Except Failure (Option Nat) × Session :=
  match c.act? with
  | some act =>
    let (r, p') := act.runFrom p
    (r.map some, p')
  | none =>
    let (r, p') := Session.clear.runFrom p
    (r.map fun _ => none, p')

/-- Code that a call finds suits its composite, and no method of what is planned takes the place of the record. -/
def Fits (p : Session) : Call → Prop
  | mix origin settings _ q =>
    ∀ b, (planned origin settings q p.world).1 = .ok b → reservedField ∉ b.memberNames
  | activate _ _ b => b.Records
  | cache origin settings _ a =>
    (p.reuses settings a = true → ∀ code, p.files.file? (p.artifact settings a) = some (.code code) →
      code.Suits a.request.name) ∧
    ∀ b, (planned origin settings a.request (p.planningWorld settings a)).1 = .ok b → reservedField ∉ b.memberNames
  | clear => True

end Call

namespace Session

open World (Outlives execute)

variable {p p' : Session} {id n : Nat} {c : Call} {name : String}

/-- What becomes of a session by a call, which may fail. -/
def next (p : Session) (c : Call) : Session := (c.run p).2

/-- What becomes of a session by calls one after another. -/
def after (p : Session) (calls : List Call) : Session := calls.foldl next p

/-- All calls of a run fit. -/
def Fits : Session → List Call → Prop
  | _, [] => True
  | p, c :: rest => c.Fits p ∧ Fits (p.next c) rest

theorem run_eq {act : Act Session Nat} (hact : c.act? = some act) :
    c.run p = ((act.runFrom p).1.map some, (act.runFrom p).2) := by
  unfold Call.run
  rw [hact]

theorem exists_act (hclear : c ≠ .clear) : ∃ act, c.act? = some act := by
  cases c with
  | clear => exact absurd rfl hclear
  | _ => exact ⟨_, rfl⟩

/-- Only a call that asks for a composite returns a class. -/
theorem act_of_run (h : c.run p = (.ok (some id), p')) : ∃ act, c.act? = some act ∧ act.runFrom p = (.ok id, p') := by
  cases hact : c.act? with
  | none =>
    unfold Call.run at h
    rw [hact] at h
    generalize Session.clear.runFrom p = r at h
    obtain ⟨r, s⟩ := r
    cases r <;> cases h
  | some act =>
    rw [run_eq hact] at h
    refine ⟨act, rfl, ?_⟩
    generalize act.runFrom p = r at h
    obtain ⟨r, s⟩ := r
    cases r with
    | error e => cases h
    | ok id =>
      cases h
      rfl

/-- A call that returns a class comes of code, and of code that serves if the call fits. -/
theorem comesOf_run (h : c.run p = (.ok (some id), p')) :
    ∃ name code, c.name? = some name ∧ ComesOf p name id p' code ∧ (c.Fits p → code.Serves name) := by
  obtain ⟨act, hact, hrun⟩ := act_of_run h
  cases c with
  | mix origin settings binds q =>
    cases hact
    obtain ⟨b, code, hplanned, hcode, hcomes⟩ := comesOf_mix hrun
    obtain ⟨built, hname⟩ := isBuilt_of_planned hplanned
    exact ⟨_, code, rfl, hcomes, fun fits => ⟨b, false, built.records (fits b hplanned), hname, hcode⟩⟩
  | activate settings binds b =>
    cases hact
    obtain ⟨code, hcode, hcomes⟩ := comesOf_activate hrun
    exact ⟨_, code, rfl, hcomes, fun fits => ⟨b, false, fits, rfl, hcode⟩⟩
  | cache origin settings binds a =>
    cases hact
    obtain ⟨code, hcomes, ⟨hreuses, hfile, hserves⟩ | ⟨b, isArtifact, hplanned, hcode⟩⟩ := comesOf_activateFromCache hrun
    · exact ⟨_, code, rfl, hcomes, fun fits => hserves (fits.1 hreuses code hfile)⟩
    · obtain ⟨built, hname⟩ := isBuilt_of_planned hplanned
      exact ⟨_, code, rfl, hcomes, fun fits => ⟨b, isArtifact, built.records (fits.2 b hplanned), hname, hcode⟩⟩
  | clear => cases hact

/-- The class is what the name asked for stands for, and no other name is touched, exactly if the class has that name. -/
theorem own_name_iff (h : c.run p = (.ok (some id), p')) (hname : c.name? = some name) :
    (p'.composites.get? name = some id ∧ ∀ other, other ≠ name → p'.composites.get? other = p.composites.get? other) ↔
      (p'.world.cls id).name = name := by
  obtain ⟨name', code, hname', hcomes, -⟩ := comesOf_run h
  rw [hname] at hname'
  cases hname'
  rw [hcomes.composites]
  constructor
  · rintro ⟨hget, -⟩
    by_contra hne
    rw [Entries.get?_put_of_ne _ _ (Ne.symm hne)] at hget
    have hfree := hcomes.free
    rw [Entries.has, hget] at hfree
    cases hfree
  · intro hown
    rw [hown]
    exact ⟨Entries.get?_put_self _ _ _, fun other hother => Entries.get?_put_of_ne _ _ hother⟩

theorem settles_act {act : Act Session Nat} (hact : c.act? = some act) : Settles p (act.runFrom p) := by
  cases c with
  | mix origin settings binds q =>
    cases hact
    exact settles_mix origin settings binds q p
  | activate settings binds b =>
    cases hact
    exact settles_activate settings binds b p
  | cache origin settings binds a =>
    cases hact
    exact settles_activateFromCache origin settings binds a p
  | clear => cases hact

/-! ## One call -/

/-- A session in order is cleared without fail. -/
theorem run_clear (h : Orderly n p) : ∃ loaded lines,
    Call.clear.run p = (.ok none, { p with world := { p.world with loaded }, lines, composites := [] }) := by
  obtain ⟨r, loaded, lines, composites, hrun, -, hempty, hok⟩ := runFrom_clear n p
  cases hok h
  cases hempty rfl
  refine ⟨loaded, lines, ?_⟩
  unfold Call.run
  dsimp only
  rw [hrun]
  rfl

/-- What a call does to the registry. -/
inductive Does (p : Session) (c : Call) : Prop where
  | cleared (asked : c = .clear) (result : (c.run p).1 = .ok none) (composites : (p.next c).composites = [])
  | failed (e : Failure) (asked : c ≠ .clear) (result : (c.run p).1 = .error e)
    (composites : (p.next c).composites = p.composites)
  /-- A class is returned that is called what was asked for, under a name that was free, and is a composite. -/
  | returned (name : String) (id : Nat) (es : List (Value × Value)) (asked : c.name? = some name)
    (result : (c.run p).1 = .ok (some id)) (own : ((p.next c).world.cls id).name = name)
    (free : p.composites.has name = false) (composites : (p.next c).composites = p.composites.put name id)
    (record : (contributors id).runFrom (p.next c) = (.ok es, p.next c))

/-- A call that asks for a composite leaves all objects. It fails and leaves the registry as well, or returns a class. -/
theorem settles_run (hclear : c ≠ .clear) : p.world.Outlives (p.next c).world ∧
    ((∃ e, (c.run p).1 = .error e ∧ (p.next c).composites = p.composites) ∨ ∃ id, c.run p = (.ok (some id), p.next c)) := by
  obtain ⟨act, hact⟩ := exists_act hclear
  have hsettles := @settles_act p c act hact
  rw [next, run_eq hact]
  generalize act.runFrom p = r at hsettles
  obtain ⟨r, s⟩ := r
  refine ⟨hsettles.world, ?_⟩
  cases r with
  | error e => exact Or.inl ⟨e, rfl, hsettles.composites e rfl⟩
  | ok id => exact Or.inr ⟨id, rfl⟩

theorem runFrom_contributors {es : List (Value × Value)}
    (h : (p.world.cls id).slots.get? reservedField = some (.value (.dict es))) :
    (contributors id).runFrom p = (.ok es, p) := by
  unfold contributors
  rw [Act.runFrom_bind, Act.runFrom_get]
  dsimp only
  rw [h]
  rfl

/-- A call that fits does one of three things, and keeps the session in order. -/
theorem Orderly.step (h : Orderly n p) (fits : c.Fits p) : Orderly n (p.next c) ∧ Does p c := by
  by_cases hclear : c = .clear
  · obtain ⟨loaded, lines, hrun⟩ := run_clear h
    subst hclear
    have hnext : p.next .clear = { p with world := { p.world with loaded }, lines, composites := [] } := by
      rw [next, hrun]
    refine ⟨?_, .cleared rfl (by rw [hrun]) (by rw [hnext])⟩
    rw [hnext]
    exact ⟨⟨h.tame.init, h.tame.hook, h.tame.sets⟩, h.known, h.foreign, fun e he => (by cases he)⟩
  · obtain ⟨hworld, houtcome⟩ := @settles_run p c hclear
    have horder : (∀ e ∈ (p.next c).composites, n ≤ e.2) → Orderly n (p.next c) := fun hnew =>
      ⟨hworld.tame h.tame, Nat.le_trans h.known hworld.classes,
        fun m hm hfile => h.foreign m (hworld.modules m hm hfile) hfile, hnew⟩
    rcases houtcome with ⟨e, he, hsame⟩ | ⟨id, hrun⟩
    · exact ⟨horder (hsame ▸ h.composites), .failed e hclear he hsame⟩
    · obtain ⟨name, code, hname, hcomes, hserves⟩ := comesOf_run hrun
      obtain ⟨l, w, hw, rfl, hexecute⟩ := hcomes.defined
      obtain ⟨hid, hown, es, hrecord⟩ := World.composite_of_execute (hw.tame h.tame) (hserves fits) hexecute
      have hcomposites : (p.next c).composites = p.composites.put l.name id := by rw [hcomes.composites, hown]
      refine ⟨horder fun e he => ?_, .returned _ id es hname (by rw [hrun]) hown hcomes.free hcomposites
        (runFrom_contributors hrecord)⟩
      rcases Entries.mem_put (hcomposites ▸ he) with he | rfl
      · exact h.composites e he
      · exact Nat.le_trans h.known (Nat.le_trans hw.classes hid)

/-- A call is refused for the name that it asks for, or for a plan that fails before the name is looked at. -/
def Refuses (p : Session) (c : Call) (name : String) : Prop :=
  (c.run p).1 = .error (.duplicateType name) ∨ ∃ origin settings binds q e, c = .mix origin settings binds q ∧
    (planned origin settings q p.world).1 = .error e ∧ (c.run p).1 = .error e

/-- A name that is taken is refused, whatever is asked for. -/
theorem refuses_of_taken (taken : p.composites.has name = true) (hname : c.name? = some name) : Refuses p c name := by
  have hresult : ∀ {act : Act Session Nat} {e : Failure}, c.act? = some act → (act.runFrom p).1 = .error e →
      (c.run p).1 = .error e := by
    intro act e hact herror
    rw [run_eq hact, herror]
    rfl
  cases c with
  | mix origin settings binds q =>
    cases hname
    have hmix := outcome_mix origin settings binds q p
    cases hplanned : (planned origin settings q p.world).1 with
    | error e =>
      rw [hplanned] at hmix
      exact Or.inr ⟨origin, settings, binds, q, e, rfl, hplanned, hresult rfl hmix⟩
    | ok b =>
      rw [hplanned] at hmix
      dsimp only at hmix
      rw [(isBuilt_of_planned hplanned).2, if_pos taken] at hmix
      exact Or.inl (hresult rfl hmix)
  | activate settings binds b =>
    cases hname
    exact Or.inl (hresult rfl (congrArg Prod.fst (runFrom_activate_taken settings binds b p taken)))
  | cache origin settings binds a =>
    cases hname
    exact Or.inl (hresult rfl (congrArg Prod.fst (runFrom_activateFromCache_taken origin settings binds p a taken)))
  | clear => cases hname

/-! ## Runs -/

variable {calls before more : List Call}

theorem Fits.append (h : Fits p (before ++ calls)) : Fits p before ∧ Fits (p.after before) calls := by
  induction before generalizing p with
  | nil => exact ⟨trivial, h⟩
  | cons c before ih =>
    obtain ⟨hfirst, hrest⟩ := h
    exact ⟨⟨hfirst, (ih hrest).1⟩, (ih hrest).2⟩

/-- A session stays in order as long as all calls fit. -/
theorem Orderly.after (h : Orderly n p) (fits : Fits p calls) : Orderly n (p.after calls) := by
  induction calls generalizing p with
  | nil => exact h
  | cons c calls ih => exact ih (h.step fits.1).1 fits.2

/-- A composite keeps its name until the session is cleared. -/
theorem held_of_run (h : Orderly n p) (fits : Fits p more) (unclear : Call.clear ∉ more)
    (held : p.composites.get? name = some id) : (p.after more).composites.get? name = some id := by
  induction more generalizing p with
  | nil => exact held
  | cons c more ih =>
    obtain ⟨horder, hdoes⟩ := h.step fits.1
    refine ih horder fits.2 (fun hmem => unclear (List.mem_cons_of_mem _ hmem)) ?_
    cases hdoes with
    | cleared asked => exact absurd (asked ▸ List.mem_cons_self) unclear
    | failed e asked result composites => rw [composites, held]
    | returned other new es asked result own free composites =>
      have hother : name ≠ other := by
        rintro rfl
        rw [Entries.has, held] at free
        cases free
      rw [composites, Entries.get?_put_of_ne _ _ hother, held]

/-- From now on a name stands for a class and is refused, until the session is cleared. -/
def Holds (p : Session) (rest : List Call) (name : String) (id : Nat) : Prop :=
  ∀ more, more <+: rest → Call.clear ∉ more → (p.after more).composites.get? name = some id ∧
    ∀ c : Call, c.name? = some name → Refuses (p.after more) c name

theorem holds_of_run (h : Orderly n p) (fits : Fits p calls) (held : p.composites.get? name = some id) :
    Holds p calls name id := by
  rintro more ⟨rest, rfl⟩ unclear
  have hget := held_of_run h (Fits.append fits).1 unclear held
  refine ⟨hget, fun c hname => refuses_of_taken ?_ hname⟩
  rw [Entries.has, hget]
  rfl

/--
A run of calls that fit, in a session that starts without composites. Wherever a call returns a class for a name, the name
stands for the class and is refused until the registry is cleared, no other name is touched, and the class records its
contributors. A call that clears empties the registry, and every name is free.
-/
theorem registry_of_run (tame : World.Tame World.Settable p.world)
    (foreign : ∀ m ∈ p.world.modules, m.file = none →
      ∀ name id, m.names.get? name = some (.cls id) → id < p.world.classes.size)
    (empty : p.composites = []) (fits : Fits p (before ++ c :: calls)) :
    (∀ name id, c.name? = some name → (c.run (p.after before)).1 = .ok (some id) →
      Holds ((p.after before).next c) calls name id ∧
      (∀ other, other ≠ name →
        ((p.after before).next c).composites.get? other = (p.after before).composites.get? other) ∧
      ∃ es, (contributors id).runFrom ((p.after before).next c) = (.ok es, (p.after before).next c)) ∧
    (c = .clear → (c.run (p.after before)).1 = .ok none ∧ ((p.after before).next c).composites = [] ∧
      ∀ name, (ensureAvailable name).runFrom ((p.after before).next c) = (.ok ⟨⟩, (p.after before).next c)) := by
  have horder : Orderly p.world.classes.size p :=
    ⟨tame, Nat.le_refl _, foreign, fun e he => by rw [empty] at he; cases he⟩
  obtain ⟨hbefore, hcall, hcalls⟩ := Fits.append fits
  obtain ⟨hnext, hdoes⟩ := (horder.after hbefore).step hcall
  cases hdoes with
  | cleared asked result composites =>
    refine ⟨fun name id hname => ?_, fun _ => ⟨result, composites, fun name => ?_⟩⟩
    · rw [asked] at hname
      cases hname
    · rw [runFrom_ensureAvailable, composites]
      rfl
  | failed e asked result composites =>
    refine ⟨fun name id _ hid => ?_, fun hclear => absurd hclear asked⟩
    rw [result] at hid
    cases hid
  | returned name id es asked result own free composites record =>
    refine ⟨fun name' id' hname' hid' => ?_, fun hclear => ?_⟩
    · rw [asked] at hname'
      rw [result] at hid'
      cases hname'
      cases hid'
      refine ⟨holds_of_run hnext hcalls ?_, fun other hother => ?_, es, record⟩
      · rw [composites, Entries.get?_put_self]
      · rw [composites, Entries.get?_put_of_ne _ _ hother]
    · rw [hclear] at asked
      cases asked

/-- A class and a mixin in a module of some name. -/
def shopIn (home : String) : Session where
  world :=
    { World.fresh with
      classes := World.fresh.classes ++
        #[{ name := "Cart", qualname := "Cart", home, order := [7, World.objectId],
            slots := [("total", .routine .ofInstance 9)] },
          { name := "Rebate", qualname := "Rebate", home, order := [8, World.objectId],
            slots := [("rate", .routine .ofInstance 9)] }]
      functions := World.fresh.functions.push
        { name := "total", qualname := "Cart.total", home, params := [{ name := "self" }], body := .nothing }
      modules := World.fresh.modules.push { name := home, names := [("Cart", .cls 7), ("Rebate", .cls 8)] }
      loaded := World.fresh.loaded.put home World.fresh.modules.size }
  files := { here := ⟨"/", ["shop"]⟩ }

def shop : Session := shopIn "shop"

def deal (name : String) : Request where
  name := name
  base := .live 7 ⟨"shop", "Cart"⟩
  mixins := [.live 8 ⟨"shop", "Rebate"⟩]

/-- A sale is mixed, and a deal made by way of a file. -/
def mixing : Call := .mix .live {} false (deal "Sale")
def caching : Call := .cache .live {} false { path := ⟨"", ["deal.py"]⟩, request := deal "Deal" }

theorem registry_of_run_shop : ∃ id, (caching.run (shop.after [mixing])).1 = .ok (some id) ∧
    Holds ((shop.after [mixing]).next caching) [.clear] "Deal" id := by
  have hsets : ∀ f ∈ shop.world.functions.toList, f.sets = [] := by decide +kernel
  have hknown : shop.world.modules.toList.all (fun m => m.names.all fun e => shop.world.isKnown e.2) = true := by
    decide +kernel
  have hmixing : ∀ b ∈ (planned .live {} (deal "Sale") shop.world).1.toOption, reservedField ∉ b.memberNames := by
    decide +kernel
  have hcaching : ∀ b ∈ (planned .live {} (deal "Deal") (shop.next mixing).world).1.toOption,
      reservedField ∉ b.memberNames := by decide +kernel
  have hrenewed : (shop.next mixing).reuses {} { path := ⟨"", ["deal.py"]⟩, request := deal "Deal" } = false := by
    decide +kernel
  have hsome : (caching.run (shop.after [mixing])).1.toOption.join.isSome = true := by decide +kernel
  have hempty : shop.composites = [] := rfl
  have fits : Fits shop ([mixing] ++ caching :: [.clear]) := by
    refine ⟨fun b hb => hmixing b (by rw [hb]; rfl), ⟨fun hreuses => ?_, fun b hb => hcaching b ?_⟩, trivial, trivial⟩
    · rw [hrenewed] at hreuses
      cases hreuses
    · rw [planningWorld, if_neg (by rw [hrenewed]; decide)] at hb
      rw [hb]
      rfl
  have hname : caching.name? = some "Deal" := rfl
  generalize shop = p at *
  have tame : World.Tame World.Settable p.world :=
    ⟨by unfold World.Settable; decide, by unfold World.Settable; decide, fun f hf name hname => by
      rw [hsets f (Array.mem_toList_iff.2 hf)] at hname
      cases hname⟩
  have foreign : ∀ m ∈ p.world.modules, m.file = none →
      ∀ name id, m.names.get? name = some (.cls id) → id < p.world.classes.size := by
    intro m hm _ name id hget
    have := List.all_eq_true.1 (List.all_eq_true.1 hknown m (Array.mem_toList_iff.2 hm)) _ (Entries.mem_of_get? hget)
    simpa [World.isKnown] using this
  generalize caching = c at *
  obtain ⟨r, hr⟩ : ∃ r, c.run (p.after [mixing]) = r := ⟨_, rfl⟩
  rw [hr] at hsome
  obtain ⟨r, s⟩ := r
  cases r with
  | error e => cases hsome
  | ok o =>
    cases o with
    | none => cases hsome
    | some id =>
      refine ⟨id, by rw [hr], ?_⟩
      exact ((registry_of_run tame foreign hempty fits).1 "Deal" id hname (by rw [hr])).1

end Session

end Amalgam
