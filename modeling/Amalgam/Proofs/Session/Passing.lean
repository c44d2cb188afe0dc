import Amalgam.Proofs.Blueprint.Swapping
import Amalgam.Proofs.Session.Origins

/-!
# What is passed through

A request without combinators and cutpoints passes the members of its classes through. A name that some mixin
offers becomes a method that calls the first class to offer it, and no other name becomes one; a field is that of the first
class that has it (`Session.passesThrough_of_build`).
-/

namespace Amalgam

/-- A request for classes of a world, without combinators and cutpoints. -/
structure Request.Passes (q : Request) (w : World) (base : Nat) (mixins : List Nat) : Prop where
  types : (q.base :: q.mixins).map (TypeLike.class? w) = (base :: mixins).map some
  combinators : q.combinators = []
  before : q.before = .nothing
  after : q.after = .nothing

namespace World

variable {w : World} {id : Nat} {r : SymbolRef} {sets : List SymbolRef} {name : String}

/-- The member that a class offers under a name in a role. -/
def offer? (w : World) (name : String) (role : Role) (id : Nat) : Option Signature :=
  match w.declaration? id name with
  | some (.member s) => if s.isEligible role then some s else none
  | _ => none

/-- The field that a class has under a name, unless it is static. -/
def plainField? (w : World) (name : String) (id : Nat) : Option Field :=
  match w.declaration? id name with
  | some (.field f) => if f.isStatic then none else some f
  | _ => none

theorem declaration?_of_offer? {role : Role} {s : Signature} (h : w.offer? name role id = some s) :
    w.declaration? id name = some (.member s) := by
  unfold offer? at h
  split at h
  · rename_i s' hs'
    split at h <;> cases h
    exact hs'
  · cases h

theorem declaration?_of_plainField? {f : Field} (h : w.plainField? name id = some f) :
    w.declaration? id name = some (.field f) ∧ f.isStatic = false := by
  unfold plainField? at h
  split at h
  · rename_i f' hf'
    split at h
    · cases h
    · rename_i hstatic
      cases h
      exact ⟨hf', by simpa using hstatic⟩
  · cases h

theorem eligible_of_inspect (role : Role) :
    (((w.inspect id r sets).eligibleMembers role).filter fun s => s.name == name) = (w.offer? name role id).toList := by
  rw [Manifest.eligibleMembers, List.filter_comm, (named_of_inspect id r sets name).1, offer?]
  cases w.declaration? id name with
  | none => rfl
  | some d =>
    cases d with
    | member s => cases hs : s.isEligible role <;> simp [Declared.member?, hs]
    | _ => rfl

/-! ## The contributors in order -/

/-- The classes, with their references, that offer a name: the first in a role of its own and the others as mixins. -/
def definers (w : World) (name : String) : Role → List (SymbolRef × Nat) → List ((SymbolRef × Nat) × Signature)
  | _, [] => []
  | role, e :: rest => ((w.offer? name role e.2).map fun s => (e, s)).toList ++ definers w name .mixin rest

/-- The first class that offers a name. -/
def firstOffer? (w : World) (name : String) : Role → List Nat → Option Nat
  | _, [] => none
  | role, id :: rest => if (w.offer? name role id).isSome then some id else firstOffer? w name .mixin rest

/-- The field of a name that is copied: that of the first class that has one. -/
def carried? (w : World) (name : String) : List (SymbolRef × Nat) → Option FieldDef
  | [] => none
  | e :: rest => ((w.plainField? name e.2).map (Fields.FieldDef.ofField e.1)).or (carried? w name rest)

/-- The first class that has a field of a name that is not static. -/
def firstPlain? (w : World) (name : String) (ids : List Nat) : Option Nat :=
  ids.find? fun id => (w.plainField? name id).isSome

variable {pairs : List (SymbolRef × Nat)} {role : Role}

theorem definers_eq_nil : w.definers name .mixin pairs = [] ↔ ∀ id ∈ pairs.map Prod.snd, w.offer? name .mixin id = none := by
  induction pairs with
  | nil => simp [definers]
  | cons e pairs ih => cases h : w.offer? name .mixin e.2 <;> simp [definers, ih, h]

theorem head?_definers {x : (SymbolRef × Nat) × Signature} (h : (w.definers name role pairs).head? = some x) : x.1 ∈ pairs ∧
    w.firstOffer? name role (pairs.map Prod.snd) = some x.1.2 ∧ ∃ role, w.offer? name role x.1.2 = some x.2 := by
  induction pairs generalizing role with
  | nil => cases h
  | cons e pairs ih =>
    rw [definers] at h
    rw [List.map_cons, firstOffer?]
    cases hoffer : w.offer? name role e.2 with
    | none =>
      rw [hoffer] at h
      obtain ⟨hx, hfirst, hrole⟩ := ih h
      exact ⟨List.mem_cons_of_mem _ hx, hfirst, hrole⟩
    | some s =>
      rw [hoffer] at h
      cases h
      exact ⟨List.mem_cons_self, rfl, role, hoffer⟩

theorem carried?_eq_none : w.carried? name pairs = none ↔ ∀ id ∈ pairs.map Prod.snd, w.plainField? name id = none := by
  induction pairs with
  | nil => simp [carried?]
  | cons e pairs ih => cases h : w.plainField? name e.2 <;> simp [carried?, ih, h]

theorem carried?_eq_some {g : FieldDef} (h : w.carried? name pairs = some g) : ∃ e ∈ pairs, ∃ f,
    g = Fields.FieldDef.ofField e.1 f ∧ w.plainField? name e.2 = some f ∧
      w.firstPlain? name (pairs.map Prod.snd) = some e.2 := by
  induction pairs with
  | nil => cases h
  | cons e pairs ih =>
    rw [carried?] at h
    rw [firstPlain?, List.map_cons, List.find?_cons]
    cases hplain : w.plainField? name e.2 with
    | none =>
      rw [hplain] at h
      obtain ⟨e', he', f, hg, hf, hfirst⟩ := ih h
      exact ⟨e', List.mem_cons_of_mem _ he', f, hg, hf, hfirst⟩
    | some f =>
      rw [hplain] at h
      cases h
      exact ⟨e, List.mem_cons_self, f, rfl, hplain, rfl⟩

end World

namespace Roster

variable {w : World} {start c c' : Roster}

/-- Classes are claimed under the paths of references. -/
def Refers (c : Roster) (pairs : List (SymbolRef × Nat)) : Prop := ∀ e ∈ pairs, c.classes.get? e.1.path = some e.2

theorem exists_refers {types : List TypeLike} {refs : List SymbolRef} {ids : List Nat}
    (h : List.Forall₂ (Pairs w c) types refs) (hids : types.map (TypeLike.class? w) = ids.map some) :
    ∃ pairs, pairs.map Prod.fst = refs ∧ pairs.map Prod.snd = ids ∧ c.Refers pairs := by
  induction h generalizing ids with
  | nil => exact ⟨[], rfl, (List.map_eq_nil_iff.1 hids.symm).symm, fun _ he => absurd he List.not_mem_nil⟩
  | @cons type r types refs hpair _ ih =>
    cases ids with
    | nil => cases hids
    | cons id ids =>
      obtain ⟨hid, hids⟩ := List.cons.inj hids
      obtain ⟨pairs, rfl, rfl, hrefers⟩ := ih hids
      obtain ⟨id', hclass, hget⟩ := hpair
      rw [hid] at hclass
      cases hclass
      refine ⟨(r, id) :: pairs, rfl, rfl, fun e he => ?_⟩
      rcases List.mem_cons.1 he with rfl | he
      · exact hget
      · exact hrefers e he

/-- What a provider serves of classes are the members that they offer. -/
theorem definitions_of_served {pairs : List (SymbolRef × Nat)} (refers : start.Refers pairs) (name : String) {role : Role}
    {served : List (List Signature)} (reads : Reads w start c)
    (h : ((Blueprint.rolesOf role (pairs.map Prod.fst)).mapM fun e =>
      (Provider.live w).eligibleMembers e.1 e.2).runFrom c = (.ok served, c')) :
    MemberMap.definitions ((pairs.map Prod.fst).zip served) name =
      (w.definers name role pairs).map fun x => (x.1.1, x.2) := by
  induction pairs generalizing role served c with
  | nil =>
    cases h
    rfl
  | cons e pairs ih =>
    rw [List.map_cons, Blueprint.rolesOf, List.mapM_cons] at h
    obtain ⟨members, d, hmembers, h⟩ := Act.bind_eq_ok.1 h
    obtain ⟨others, d', hothers, h⟩ := Act.bind_eq_ok.1 h
    cases h
    obtain ⟨m, _, hm, hdone⟩ := Act.bind_eq_ok.1 hmembers
    cases hdone
    obtain ⟨r', sets, rfl⟩ := (keeps_reads w start).good reads hm e.2 (refers e List.mem_cons_self)
    have hreads := (keeps_reads w start).manifest e.1 c reads
    rw [hm] at hreads
    show (((w.inspect e.2 r' sets).eligibleMembers role).filter fun s => s.name == name).map (fun s => (e.1, s)) ++
      MemberMap.definitions ((pairs.map Prod.fst).zip others) name = _
    rw [ih (fun x hx => refers x (List.mem_cons_of_mem _ hx)) hreads hothers, World.eligible_of_inspect, World.definers,
      List.map_append]
    cases w.offer? name role e.2 <;> rfl

end Roster

namespace Fields

theorem filter_added (origin : SymbolRef) (taken : List String) (fields : List Field) {name : String}
    (hname : name ≠ reservedField) : (added origin taken fields).filter (fun g => g.name == name) =
      if name ∈ taken then []
      else ((fields.filter fun f => f.name == name).find? fun f => !f.isStatic).toList.map (FieldDef.ofField origin) := by
  induction fields generalizing taken with
  | nil => simp [added]
  | cons f rest ih =>
    unfold added
    by_cases hf : f.name = name
    · have hreserved : (f.name == reservedField) = false := by simpa [hf] using hname
      rw [hreserved, Bool.false_or]
      cases hstatic : f.isStatic with
      | true => simp [ih, hf, hstatic]
      | false =>
        by_cases htaken : name ∈ taken
        · simp [ih, hf, htaken]
        · have hof : (FieldDef.ofField origin f).name = name := hf
          simp [ih, hf, hstatic, htaken, hof]
    · have hother : (f.name == name) = false := by simpa using hf
      have hof : ((FieldDef.ofField origin f).name == name) = false := hother
      have hne : name ≠ f.name := fun he => hf he.symm
      split
      · rw [ih, List.filter_cons_of_neg (by simpa using hf)]
      · rw [List.filter_cons_of_neg (by simp [hof]), ih, List.filter_cons_of_neg (by simpa using hf)]
        simp [hne]

variable {w : World} {start c c' : Roster}

/-- What a class tells of a field that is copied. -/
theorem find?_of_inspect (r : SymbolRef) (id : Nat) (sets : List SymbolRef) (name : String) :
    ((w.inspect id r sets).fields.filter fun f => f.name == name).find? (fun f => !f.isStatic) = w.plainField? name id := by
  rw [(World.named_of_inspect _ _ _ _).2, World.plainField?]
  cases w.declaration? id name with
  | none => rfl
  | some d =>
    cases d with
    | field f => cases hf : f.isStatic <;> simp [World.Declared.field?, hf]
    | _ => rfl

/-- A name is among the fields that a class adds, if it was not taken, exactly if the class has a field to copy. -/
theorem mem_added_iff (origin r : SymbolRef) (id : Nat) (sets : List SymbolRef) {taken : List String} {name : String}
    (hname : name ≠ reservedField) (htaken : name ∉ taken) :
    name ∈ (added origin taken (w.inspect id r sets).fields).map FieldDef.name ↔ (w.plainField? name id).isSome = true := by
  have hadded := filter_added origin taken (w.inspect id r sets).fields hname
  rw [find?_of_inspect, if_neg htaken] at hadded
  constructor
  · intro hmem
    obtain ⟨g, hg, hgname⟩ := List.mem_map.1 hmem
    have hg : g ∈ (w.plainField? name id).toList.map (FieldDef.ofField origin) :=
      hadded ▸ List.mem_filter.2 ⟨hg, by simpa using hgname⟩
    obtain ⟨f, hf, -⟩ := List.mem_map.1 hg
    exact Option.isSome_iff_exists.2 ⟨f, Option.mem_toList.1 hf⟩
  · intro hsome
    obtain ⟨f, hf⟩ := Option.isSome_iff_exists.1 hsome
    have hg : FieldDef.ofField origin f ∈ (added origin taken (w.inspect id r sets).fields).filter fun g => g.name == name := by
      rw [hadded, hf]
      exact List.mem_singleton_self _
    obtain ⟨hg, hgname⟩ := List.mem_filter.1 hg
    exact List.mem_map.2 ⟨_, hg, by simpa using hgname⟩

/-- The fields of a name that are copied from classes are those of the first that has one. -/
theorem filter_addContributors {pairs : List (SymbolRef × Nat)} (refers : start.Refers pairs) {name : String}
    (hname : name ≠ reservedField) {done all : List FieldDef} (reads : Roster.Reads w start c)
    (h : (addContributors (Provider.live w) done (pairs.map Prod.fst)).runFrom c = (.ok all, c')) :
    all.filter (fun g => g.name == name) = done.filter (fun g => g.name == name) ++
      if name ∈ done.map FieldDef.name then [] else (w.carried? name pairs).toList := by
  induction pairs generalizing done c with
  | nil =>
    cases h
    simp [World.carried?]
  | cons e pairs ih =>
    obtain ⟨m, d, hm, h⟩ := Act.bind_eq_ok.1 h
    obtain ⟨next, d', hnext, h⟩ := Act.bind_eq_ok.1 h
    rw [Act.runFrom_ofExcept, Prod.mk.injEq] at hnext
    obtain ⟨hadd, rfl⟩ := hnext
    rw [addAll_eq] at hadd
    split at hadd
    · cases hadd
    · cases hadd
      obtain ⟨r', sets, rfl⟩ := (Roster.keeps_reads w start).good reads hm e.2 (refers e List.mem_cons_self)
      have hreads := (Roster.keeps_reads w start).manifest e.1 c reads
      rw [hm] at hreads
      have hadded := filter_added e.1 (done.map FieldDef.name) (w.inspect e.2 r' sets).fields hname
      rw [find?_of_inspect] at hadded
      rw [ih (fun x hx => refers x (List.mem_cons_of_mem _ hx)) hreads h, List.filter_append, hadded, World.carried?,
        List.append_assoc, List.map_append]
      congr 1
      by_cases hdone : name ∈ done.map FieldDef.name
      · rw [if_pos hdone, if_pos hdone, if_pos (List.mem_append_left _ hdone)]
        rfl
      · have hmem := mem_added_iff (w := w) e.1 r' e.2 sets hname hdone
        rw [if_neg hdone, if_neg hdone]
        cases hplain : w.plainField? name e.2 with
        | none =>
          rw [if_neg fun h => (List.mem_append.1 h).elim hdone fun h => by simpa [hplain] using hmem.1 h]
          rfl
        | some f =>
          rw [if_pos (List.mem_append_right _ (hmem.2 (by simp [hplain])))]
          rfl

end Fields

namespace Blueprint

variable {σ : Type} {strict : Bool} {c : Context} {member : String}

/-- Nothing is registered and nothing is advised. -/
structure Context.IsPlain (c : Context) : Prop where
  specs : c.specs = []
  before : c.before = []
  after : c.after = []

theorem isPlain_of_planContext {p : Provider σ} {d : Defaults} {q : Request} {x : Mix} {members : MemberMap}
    {t t' : Planning σ} (hcombinators : q.combinators = []) (hbefore : q.before = .nothing) (hafter : q.after = .nothing)
    (h : (planContext p d strict q x members).runFrom t = (.ok c, t')) : c.IsPlain := by
  unfold planContext at h
  rw [hcombinators, hbefore, hafter] at h
  cases h
  exact ⟨rfl, rfl, rfl⟩

/-- The method of a composite that calls a member of a class and does nothing else. -/
def passing (composite member : String) (r : SymbolRef) (s : Signature) : MethodDef where
  name := member
  memberId := Advice.memberId composite member
  signature := s
  reference := r.path
  core := .call ⟨r.path, member⟩

/-- The methods of a member that is passed through: none if only the base has it. -/
def passed (c : Context) (member : String) : List (SymbolRef × Signature) → List MethodDef
  | [] => []
  | (r, s) :: rest => if rest.isEmpty && r == c.base then [] else [passing c.composite member r s]

theorem methodsOf_eq_passed (plain : c.IsPlain) (definitions : List (SymbolRef × Signature)) :
    c.methodsOf member definitions = passed c member definitions := by
  have hdisabled : ∀ phase, c.isEnabled phase member = false := by
    intro phase
    unfold Context.isEnabled
    cases phase <;> simp [plain.before, plain.after]
  have hplan : (c.plan member).before = [] ∧ (c.plan member).after = [] := by
    unfold Context.plan Advice.weave
    rw [hdisabled, hdisabled]
    split <;> exact ⟨rfl, rfl⟩
  cases definitions with
  | nil => rfl
  | cons e rest =>
    obtain ⟨r, s⟩ := e
    have hneeds : c.needsMethod member (((r, s) :: rest).map Prod.fst) = !(rest.isEmpty && r == c.base) := by
      unfold Context.needsMethod
      rw [hdisabled, hdisabled]
      cases rest <;> simp [bne]
    have hmethod : c.methodFor member (r, s) rest = passing c.composite member r s := by
      rw [Context.methodFor, plain.specs, hplan.1, hplan.2]
      rfl
    rw [Context.methodsOf, passed, hneeds, hmethod]
    cases rest.isEmpty && r == c.base <;> rfl

/-- The methods of a composite that passes everything through are those of its members one by one. -/
theorem passed_of_planMethods (plain : c.IsPlain) {members : MemberMap} {ms : List MethodDef} {t t' : Planning σ}
    (h : (planMethods strict c members).runFrom t = (.ok ms, t')) : ms = members.flatMap fun e => passed c e.1 e.2 := by
  rw [(planMethods_eq h).1]
  exact List.flatMap_congr fun e _ => methodsOf_eq_passed plain e.2

/-- Of one name there is at most one method, that of the member. -/
theorem filter_passed (c : Context) {members : MemberMap} (distinct : members.keys.Nodup) (name : String) :
    (members.flatMap fun e => passed c e.1 e.2).filter (fun m => m.name == name) =
      passed c name ((members.get? name).getD []) := by
  have hname : ∀ member definitions, ∀ m ∈ passed c member definitions, m.name = member := by
    intro member definitions m hm
    cases definitions with
    | nil => cases hm
    | cons e rest =>
      rw [passed] at hm
      split at hm
      · cases hm
      · rw [List.mem_singleton.1 hm]
        rfl
  induction members with
  | nil => rfl
  | cons e rest ih =>
    obtain ⟨member, definitions⟩ := e
    obtain ⟨hmember, distinct⟩ := List.nodup_cons.1 distinct
    rw [List.flatMap_cons, List.filter_append, ih distinct]
    by_cases he : member = name
    · subst he
      have hrest : Entries.get? rest member = none := (Entries.get?_eq_none_iff _ _).2 hmember
      rw [hrest, Entries.get?, if_pos rfl, List.filter_eq_self.2 fun m hm => by simpa using hname _ _ m hm]
      exact List.append_nil _
    · rw [Entries.get?, if_neg he, List.filter_eq_nil_iff.2 fun m hm hmname => he ?_, List.nil_append]
      exact (hname _ _ m hm).symm.trans (eq_of_beq hmname)

end Blueprint

namespace Session

open Blueprint

variable {w : World} {d : Defaults} {strict : Bool} {q : Request} {b : Blueprint} {t' : Planning Roster} {base : Nat}
  {mixins : List Nat}

/-- What is known of a composite that passes through the members of a base and of mixins, each of which has a reference. -/
structure PassesThrough (w : World) (b : Blueprint) (r : SymbolRef) (base : Nat) (others : List (SymbolRef × Nat)) : Prop where
  extended : b.header.base = r.path
  bound : ∀ e ∈ (r, base) :: others, ∀ names, seed w b = .ok names →
    ∃ head, b.aliases.get? e.1.path = some head ∧ names.get? head = some (.cls e.2)
  methods : ∀ name, (b.methods.filter fun m => m.name == name) =
    if w.definers name .mixin others = [] then []
    else (w.definers name .base ((r, base) :: others)).head?.toList.map fun x => passing b.name name x.1.1 x.2
  fields : ∀ name, name ≠ reservedField →
    (b.fields.filter fun f => f.name == name) = (w.carried? name ((r, base) :: others)).toList

namespace PassesThrough

variable {r : SymbolRef} {others : List (SymbolRef × Nat)} (through : PassesThrough w b r base others) {C : Nat} {name : String}

include through

/-- The name of a contributor is bound to its class. -/
theorem get?_seed {e : SymbolRef × Nat} (he : e ∈ (r, base) :: others) {names : Entries Value} (hseed : seed w b = .ok names)
    {head : String} (hhead : b.aliases.get? e.1.path = some head) : names.get? head = some (.cls e.2) := by
  obtain ⟨head', hhead', hget⟩ := through.bound e he names hseed
  cases hhead.symm.trans hhead'
  exact hget

/-- A name that a mixin offers has one method, for the first class that offers it. -/
theorem exists_method (offered : ∃ m ∈ others.map Prod.snd, w.offer? name .mixin m ≠ none)
    (hC : w.firstOffer? name .base (base :: others.map Prod.snd) = some C) : ∃ e ∈ (r, base) :: others, ∃ s, e.2 = C ∧
      w.declaration? C name = some (.member s) ∧ (b.methods.filter fun m => m.name == name) = [passing b.name name e.1 s] := by
  have hdefiners : w.definers name .mixin others ≠ [] := by
    rw [Ne, World.definers_eq_nil]
    push Not
    exact offered
  obtain ⟨x, hx⟩ : ∃ x, (w.definers name .base ((r, base) :: others)).head? = some x := by
    rw [World.definers]
    cases w.offer? name .base base with
    | some s => exact ⟨_, rfl⟩
    | none =>
      obtain ⟨x, more, hmore⟩ := List.exists_cons_of_ne_nil hdefiners
      exact ⟨x, by rw [hmore]; rfl⟩
  obtain ⟨hmem, hfirst, role, hoffer⟩ := World.head?_definers hx
  obtain rfl := Option.some.inj (hC.symm.trans hfirst)
  refine ⟨x.1, hmem, x.2, rfl, World.declaration?_of_offer? hoffer, ?_⟩
  rw [through.methods name, if_neg hdefiners, hx]
  rfl

/-- A name that some class has a field of has one field, that of the first such class. -/
theorem exists_field (hC : w.firstPlain? name (base :: others.map Prod.snd) = some C) (hname : name ≠ reservedField) :
    ∃ e ∈ (r, base) :: others, ∃ f, e.2 = C ∧ w.plainField? name C = some f ∧
      (b.fields.filter fun g => g.name == name) = [Fields.FieldDef.ofField e.1 f] := by
  cases hcarried : w.carried? name ((r, base) :: others) with
  | none =>
    have hnone : w.firstPlain? name (base :: others.map Prod.snd) = none :=
      List.find?_eq_none.2 fun D hD => by simp [World.carried?_eq_none.1 hcarried D hD]
    cases hC.symm.trans hnone
  | some g =>
    obtain ⟨e, he, f, rfl, hf, hfirst⟩ := World.carried?_eq_some hcarried
    obtain rfl := Option.some.inj (hC.symm.trans hfirst)
    refine ⟨e, he, f, rfl, hf, ?_⟩
    rw [through.fields name hname, hcarried]
    rfl

theorem methods_eq_nil (nothing : ∀ m ∈ others.map Prod.snd, w.offer? name .mixin m = none) :
    (b.methods.filter fun m => m.name == name) = [] := by
  rw [through.methods name, if_pos (World.definers_eq_nil.2 nothing)]

theorem fields_eq_nil (hnone : w.firstPlain? name (base :: others.map Prod.snd) = none) (hname : name ≠ reservedField) :
    (b.fields.filter fun g => g.name == name) = [] := by
  have hcarried : w.carried? name ((r, base) :: others) = none :=
    World.carried?_eq_none.2 fun D hD => by simpa using List.find?_eq_none.1 hnone D hD
  rw [through.fields name hname, hcarried]
  rfl

end PassesThrough

theorem mem_definers {role : Role} {name : String} {pairs : List (SymbolRef × Nat)} {x : (SymbolRef × Nat) × Signature}
    (h : x ∈ w.definers name role pairs) : x.1 ∈ pairs := by
  induction pairs generalizing role with
  | nil => cases h
  | cons e pairs ih =>
    rcases List.mem_append.1 h with h | h
    · obtain ⟨s, -, rfl⟩ := Option.map_eq_some_iff.1 (Option.mem_toList.1 h)
      exact List.mem_cons_self
    · exact List.mem_cons_of_mem _ (ih h)

/-- The base alone gives no method, and several classes give the one of the first. -/
theorem passed_definers {c : Context} {composite : String} {r : SymbolRef} {others : List (SymbolRef × Nat)}
    (hbase : c.base = r) (hcomposite : c.composite = composite)
    (distinct : (((r, base) :: others).map fun e => e.1.path).Nodup) (name : String) :
    passed c name ((w.definers name .base ((r, base) :: others)).map fun x => (x.1.1, x.2)) =
      if w.definers name .mixin others = [] then []
      else (w.definers name .base ((r, base) :: others)).head?.toList.map fun x => passing composite name x.1.1 x.2 := by
  have hothers : ∀ x ∈ w.definers name .mixin others, x.1.1 ≠ r := by
    rintro x hx rfl
    exact (List.nodup_cons.1 distinct).1 (List.mem_map.2 ⟨x.1, mem_definers hx, rfl⟩)
  rw [World.definers]
  cases hoffer : w.offer? name .base base with
  | none =>
    cases hmore : w.definers name .mixin others with
    | nil => rfl
    | cons x more =>
      have hne : (x.1.1 == c.base) = false := by
        rw [hbase]
        simpa using hothers x (hmore ▸ List.mem_cons_self)
      simp [passed, hne, hcomposite]
  | some s =>
    cases hmore : w.definers name .mixin others with
    | nil => simp [passed, hbase]
    | cons x more => simp [passed, hcomposite]

/-- A plan of classes that have references: its members and its fields are those that the classes have. -/
structure PlansClasses (w : World) (pairs : List (SymbolRef × Nat)) (o : Outline) : Prop where
  participants : o.mix.participants = pairs.map Prod.fst
  members : ∀ name, o.context.members.get? name =
    if w.definers name .base pairs = [] then none else some ((w.definers name .base pairs).map fun x => (x.1.1, x.2))
  fields : ∀ name, name ≠ reservedField →
    (o.fields.filter fun g => g.name == name) = (w.carried? name pairs).toList

theorem plansClasses_of_outline {o : Outline}
    (types : (q.base :: q.mixins).map (TypeLike.class? w) = (base :: mixins).map some)
    (h : (outline (Provider.live w) d strict q).runFrom { provider := {} } = (.ok o, t')) :
    ∃ r others, others.map Prod.snd = mixins ∧ PlansClasses w ((r, base) :: others) o ∧
      t'.provider.Refers ((r, base) :: others) ∧ o.context.base = r ∧ ∃ u v,
        (planContext (Provider.live w) d strict q o.mix o.context.members).runFrom u = (.ok o.context, v) ∧
        (planMethods strict o.context o.context.members).runFrom v = (.ok o.methods, t') := by
  obtain ⟨v, hmix, hend⟩ := members_of_outline h
  obtain ⟨hmanifests, htypes⟩ := pairs_of_resolveMix rfl hmix
  obtain ⟨pairs, hrefs, hids, hrefers⟩ := Roster.exists_refers htypes types
  obtain ⟨⟨r, base'⟩, others, rfl, hr, hothers⟩ := List.map_eq_cons_iff.1 hrefs
  obtain ⟨rfl, hmixins⟩ := List.cons.inj hids
  have hstart : Roster.Reads w v.provider v.provider := Roster.Reads.new hmanifests
  have hgrown := (hend (Roster.keeps_reads w v.provider) hstart).2.grown
  -- The stages of the plan, each of which starts with a provider that has read what it knows off the classes.
  obtain ⟨-, v', v₁, v₂, v₃, v₄, hmix', hheader, hfields, hmembers, hcontext, hmethods⟩ := runs_of_outline h
  obtain ⟨-, rfl⟩ := Prod.mk.inj (hmix'.symm.trans hmix)
  have hreads₁ := (planHeader_eq_ok (Roster.keeps_reads w v'.provider) hstart hheader).2.2.2
  have hreads₂ := (Fields.addContributors_eq_ok (Roster.keeps_reads w v'.provider) hreads₁ (Planner.ask_eq_ok hfields)).2
  obtain ⟨-, hbase, -⟩ := planContext_eq_ok hcontext
  have hparticipants : o.mix.participants = ((r, base') :: others).map Prod.fst := hrefs.symm
  refine ⟨r, others, hmixins, ⟨hparticipants, fun name => ?_, fun name hname => ?_⟩,
    fun e he => hgrown _ _ (hrefers e he), hbase.trans hr.symm, v₃, v₄, hcontext, hmethods⟩
  · obtain ⟨served, hserved, hcollected⟩ := memberMap_eq_collect hmembers
    rw [hparticipants] at hserved
    have hdefinitions := Roster.definitions_of_served hrefers name hreads₂ hserved
    rw [hcollected, MemberMap.get?_collect, hparticipants, hdefinitions]
    simp only [List.map_eq_nil_iff]
    rfl
  · have hall := Fields.filter_addContributors hrefers hname hreads₁ (by rw [← hparticipants]; exact Planner.ask_eq_ok hfields)
    refine hall.trans ?_
    have hreserved : (reservedField == name) = false := by simpa using hname.symm
    simp [Fields.reserved, hreserved, hname]

theorem passesThrough_of_build (passes : q.Passes w base mixins)
    (hb : (build (Provider.live w) d strict q).runFrom { provider := {} } = (.ok b, t')) :
    ∃ r others, others.map Prod.snd = mixins ∧ PassesThrough w b r base others := by
  obtain ⟨o, u, claims, houtline, hclaims, rfl⟩ := build_eq_ok hb
  have sound := outline_eq_ok (Provider.keeps_trivial _) trivial houtline
  obtain ⟨r, others, hmixins, plans, hrefers, hbase, v, v', hcontext, hmethods⟩ :=
    plansClasses_of_outline passes.types houtline
  obtain ⟨-, hmixBase, -⟩ := planContext_eq_ok hcontext
  have hpaths : (((r, base) :: others).map fun e => e.1.path).Nodup := by
    have := sound.participants
    rwa [plans.participants, List.map_map] at this
  refine ⟨r, others, hmixins, ⟨?_, fun e he names hseed => ?_, fun name => ?_, plans.fields⟩⟩
  · exact sound.headerBase.trans (congrArg SymbolRef.path (hmixBase.symm.trans hbase))
  · exact get?_seed_contributor hclaims hseed (plans.participants ▸ List.mem_map_of_mem he) (hrefers e he)
  · have hmethods := passed_of_planMethods (isPlain_of_planContext passes.combinators passes.before passes.after hcontext)
      hmethods
    show o.methods.filter _ = _
    rw [hmethods, filter_passed o.context sound.members.distinct, plans.members]
    refine Eq.trans ?_ (passed_definers hbase (sound.composite.trans sound.headerName.symm) hpaths name)
    split
    · rename_i hnil
      rw [hnil]
      rfl
    · rfl

end Session

end Amalgam
