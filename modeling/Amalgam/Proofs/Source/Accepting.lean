import Amalgam.Proofs.Source.Fitting
import Amalgam.Proofs.World.Relaying

/-!
# Which calls a generated method accepts

A generated method has a receiver of its own in front of the parameters that its reference shows, and a class may rename
those. So it need not accept the same calls as the reference: `Source.Emits.standsFor_iff` says of which methods it does, and
gives the reference the same binding that the reference would have made of the call itself.
-/

namespace Amalgam

open Source (forward evalArgs)

/-! ## What a function is called through -/

namespace Parameter

variable {r : Option String} {own : List Parameter} {x : Value} {args : List Value} {keywords : Entries Value}

/-- The parameter that takes what a function is called through by its place. -/
def taking (r : Option String) (own : List Parameter) : Option Parameter :=
  if r.isSome then own.head?.filter isPositional else none

/-- The parameters behind it: those that a function shows. -/
def behind (r : Option String) (own : List Parameter) : List Parameter :=
  if (taking r own).isSome then own.tail else own

/-- What a function is called through is the first argument. -/
def through (r : Option String) (x : Value) : List Value := r.toList.map fun _ => x

/-- The binding of a function that is called through something, given the binding of the parameters that it shows. -/
def receive (r : Option String) (own : List Parameter) (x : Value) (env : Entries Value) : Entries Value :=
  match taking r own, env with
  | some p, env => (p.name, x) :: env
  | none, (name, .tuple vs) :: env => (name, .tuple (through r x ++ vs)) :: env
  | none, env => env

@[simp] theorem receive_none (own : List Parameter) (x : Value) (env : Entries Value) : receive none own x env = env := by
  unfold receive
  split
  · simp [taking] at *
  · rfl
  · rfl

/-- A keyword has the name of the parameter that takes what the function is called through. -/
def Meets (r : Option String) (own : List Parameter) (keywords : Entries Value) : Prop :=
  ∃ p ∈ (taking r own).toList, p.isNamed = true ∧ p.name ∈ keywords.keys

instance (r : Option String) (own : List Parameter) (keywords : Entries Value) : Decidable (Meets r own keywords) :=
  inferInstanceAs (Decidable (∃ p ∈ (taking r own).toList, _))

/-- A function can be called through something, if that is what happens to it. -/
def Opens (r : Option String) (own : List Parameter) : Prop :=
  r.isSome = true → ∃ p ps, own = p :: ps ∧ (p.isPositional = true ∨ p.kind = .varPositional)

/-- A function that is called through something binds its other arguments to the parameters that it shows. -/
theorem bind?_through (opens : Opens r own) : bind? own (through r x ++ args) keywords =
    if Meets r own keywords then none else (bind? (behind r own) args keywords).map (receive r own x) := by
  cases r with
  | none =>
    have hmeets : ¬Meets none own keywords := by simp [Meets, taking]
    have hreceive : receive none own x = id := funext (receive_none own x)
    rw [if_neg hmeets, hreceive, Option.map_id]
    rfl
  | some name =>
    obtain ⟨p, ps, rfl, hp | hp⟩ := opens rfl
    · have htaking : taking (some name) (p :: ps) = some p := by
        simp [taking, hp]
      have hbehind : behind (some name) (p :: ps) = ps := by simp [behind, htaking]
      have hmeets : Meets (some name) (p :: ps) keywords ↔ p.isNamed = true ∧ p.name ∈ keywords.keys := by
        simp [Meets, htaking]
      have hreceive : receive (some name) (p :: ps) x = ((p.name, x) :: ·) := by
        funext env
        simp [receive, htaking]
      rw [hbehind, hreceive]
      simp only [hmeets]
      exact bind?_positional hp
    · have htaking : taking (some name) (p :: ps) = none := by
        simp [taking, isPositional, hp]
      have hbehind : behind (some name) (p :: ps) = p :: ps := by simp [behind, htaking]
      have hmeets : ¬Meets (some name) (p :: ps) keywords := by simp [Meets, htaking]
      rw [hbehind, if_neg hmeets, bind?_variadic hp, bind?_variadic hp, Option.map_map]
      congr 1
      funext env
      simp [receive, htaking]

theorem opens_of_taking (h : (taking r own).isSome = true) : Opens r own := by
  intro _
  cases own with
  | nil => simp [taking] at h
  | cons p ps =>
    refine ⟨p, ps, rfl, Or.inl ?_⟩
    cases r with
    | none => cases h
    | some name =>
      by_contra hp
      simp [taking, hp] at h

theorem legal_behind (legal : ParamShape.IsLegal (own.map shape)) : ParamShape.IsLegal ((behind r own).map shape) := by
  unfold behind
  split
  · cases own with
    | nil => exact legal
    | cons p ps => exact legal.tail
  · exact legal

/-- What takes the receiver stands in front of the others, whose names differ. -/
theorem of_taking {p : Parameter} (legal : ParamShape.IsLegal (own.map shape)) (hp : p ∈ taking r own) :
    own = p :: behind r own ∧ p.isPositional = true ∧ ∀ q ∈ behind r own, p.shape.Precedes q.shape ∧ q.name ≠ p.name := by
  have hp : taking r own = some p := hp
  have hbehind : behind r own = own.tail := by simp [behind, hp]
  cases own with
  | nil => simp [taking] at hp
  | cons p' ps =>
    have hfirst : p' = p ∧ p.isPositional = true := by
      unfold taking at hp
      split at hp
      · obtain ⟨hmem, hpositional⟩ := Option.filter_eq_some_iff.1 hp
        exact ⟨Option.some.inj hmem, hpositional⟩
      · cases hp
    obtain ⟨rfl, hpositional⟩ := hfirst
    rw [hbehind]
    refine ⟨rfl, hpositional, fun q hq => ⟨?_, fun heq => ?_⟩⟩
    · exact (List.pairwise_cons.1 legal.ordered).1 q.shape (List.mem_map_of_mem hq)
    · exact (List.nodup_cons.1 legal.distinct).1 (List.mem_map.2 ⟨q.shape, List.mem_map_of_mem hq, heq⟩)

/-- The binding of a function tells that of the parameters that it shows. -/
theorem receive_injective (legal : ParamShape.IsLegal (own.map shape)) (opens : Opens r own) {args args' : List Value}
    {keywords keywords' env env' : Entries Value} (h : bind? (behind r own) args keywords = some env)
    (h' : bind? (behind r own) args' keywords' = some env') (heq : receive r own x env = receive r own x env') :
    env = env' := by
  cases htaking : taking r own with
  | some p =>
    simp only [receive, htaking] at heq
    exact (List.cons.inj heq).2
  | none =>
    cases r with
    | none => rwa [receive_none, receive_none] at heq
    | some name =>
      obtain ⟨p, ps, rfl, hp | hp⟩ := opens rfl
      · simp [taking, hp] at htaking
      · have hbehind : behind (some name) (p :: ps) = p :: ps := by simp [behind, htaking]
        rw [hbehind, bind?_variadic hp] at h h'
        obtain ⟨rest, -, rfl⟩ := Option.map_eq_some_iff.1 h
        obtain ⟨rest', -, rfl⟩ := Option.map_eq_some_iff.1 h'
        simp only [receive, htaking, List.cons.injEq, Prod.mk.injEq, Value.tuple.injEq, List.append_cancel_left_eq,
          true_and] at heq
        rw [heq.1, heq.2]

end Parameter

/-! ## Generated functions -/

/-- Surroundings in which nothing goes on. -/
def Surroundings.idle : Surroundings Id where
  lookUp _ := .none
  attr _ _ := .none
  call _ _ _ := .none
  await _ := .none
  shown _ := ""
  className _ := ""
  raise _ := .none
  unbound := .none
  unassigned := .none
  misfit := .none

namespace Source

open Parameter (bind? behind through taking receive Opens Meets bound)

/-- A function stands for another in a call: the call fits both or neither, and in the call that the first one makes, the
other gets the binding that it would have made of the call itself. -/
structure StandsFor (own emitted : List Parameter) (call : Call) (args : List Value) (keywords : Entries Value) : Prop where
  fits : (bind? emitted args keywords).isSome = (bind? own args keywords).isSome
  hands : ∀ env, bind? emitted args keywords = some env → ∀ locals : Entries Value,
    (∀ e ∈ env, locals.get? e.1 = some e.2) → ∃ vs ks,
      (∀ {M : Type → Type} [Monad M] [LawfulMonad M] (s : Surroundings M),
        evalArgs s locals [] [] call.args = pure (some (vs, ks))) ∧ bind? own vs ks = bind? own args keywords

/-- A function of some parameters is written down, inside a class, as another that calls it: behind a receiver, the parameters
that the first one shows. -/
structure Emits (owner : String) (r : Option String) (own emitted : List Parameter) (call : Call) : Prop where
  legal : ParamShape.IsLegal (own.map Parameter.shape)
  plain : ∀ name ∈ r, Text.privateName owner name = name
  shapes : emitted.map Parameter.shape = (r.toList.map fun name => .receiver name ((behind r own).map Parameter.shape)) ++
    ((behind r own).map Parameter.shape).map (ParamShape.within owner)
  distinct : (emitted.map Parameter.name).Nodup
  args : ∃ ps : List Param, ps.map Param.shape = (behind r own).map Parameter.shape ∧
    call.args = r.toList.map Arg.name ++ ps.map fun p => (forward p).within owner

/--
When a function that is generated for another stands for it in all calls: no name that a keyword may have is private to the
class; the other function can be called through something; where it takes any keywords, the parameter in front has the same
name as the receiver, if they have names for keywords at all; and the defaults are the same.
-/
structure Mirrors (owner : String) (r : Option String) (own emitted : List Parameter) : Prop where
  names : ∀ p ∈ behind r own, p.isNamed = true → Text.privateName owner p.name = p.name
  opens : Opens r own
  keywords : ∀ name ∈ r, (∃ p ∈ behind r own, p.kind = .varKeyword) → (∃ p ∈ behind r own, p.kind = .positionalOnly) ∨
    ∃ p ∈ taking r own, p.kind = .positionalOrKeyword ∧ p.name = name
  defaults : emitted.map Parameter.default = (r.toList.map fun _ => none) ++ (behind r own).map Parameter.default

namespace Emits

variable {owner : String} {r : Option String} {own emitted : List Parameter} {call : Call}

/-- The parameters of a generated function: the receiver, and the renamed parameters, up to defaults. -/
theorem parts (emits : Emits owner r own emitted call) :
    (∀ name ∈ r, ∃ p ∈ taking r emitted, p.name = name ∧ p.default = none ∧
      (p.isNamed = true ↔ ∀ q ∈ behind r own, q.kind ≠ .positionalOnly)) ∧
    Opens r emitted ∧
    (behind r emitted).map Parameter.shape = ((behind r own).map (Parameter.within owner)).map Parameter.shape := by
  have hshapes := emits.shapes
  rw [← Parameter.shape_within] at hshapes
  cases r with
  | none => exact ⟨by simp, by simp [Opens], hshapes⟩
  | some name =>
    obtain ⟨p, ps, rfl, hp, hps⟩ := List.map_eq_cons_iff.1 hshapes
    have hp : p.shape = .receiver name ((behind (some name) own).map Parameter.shape) := hp
    have hpositional : p.isPositional = true := by
      have hreceiver := ParamShape.isPositional_receiver name ((behind (some name) own).map Parameter.shape)
      rw [← hp] at hreceiver
      exact hreceiver
    have htaking : taking (some name) (p :: ps) = some p := by simp [taking, hpositional]
    have hnamed : p.isNamed = true ↔ ∀ q ∈ behind (some name) own, q.kind ≠ .positionalOnly := by
      have hkind : p.kind = if ((behind (some name) own).map Parameter.shape).any (fun s => s.kind == .positionalOnly)
          then .positionalOnly else .positionalOrKeyword := congrArg ParamShape.kind hp
      rw [Parameter.isNamed, hkind, List.any_map]
      split
      · rename_i hany
        simpa [Parameter.shape] using hany
      · rename_i hany
        simpa [Parameter.shape] using hany
    refine ⟨?_, Parameter.opens_of_taking (by simp [htaking]), ?_⟩
    · rintro _ ⟨⟩
      refine ⟨p, htaking, congrArg ParamShape.name hp, ?_, hnamed⟩
      exact Option.isNone_iff_eq_none.1 (Option.isSome_eq_false_iff.1 (congrArg ParamShape.hasDefault hp))
    · simpa [behind, htaking] using hps

/-- The language takes the parameters of a generated function as well. -/
theorem legal_emitted (emits : Emits owner r own emitted call) : ParamShape.IsLegal (emitted.map Parameter.shape) := by
  have hdistinct : ((emitted.map Parameter.shape).map ParamShape.name).Nodup := by
    rw [List.map_map]
    exact emits.distinct
  rw [emits.shapes] at hdistinct ⊢
  have legal := Parameter.legal_behind (r := r) emits.legal
  generalize (behind r own).map Parameter.shape = ss at legal hdistinct ⊢
  rw [List.map_append] at hdistinct
  have hwithin : ParamShape.IsLegal (ss.map (ParamShape.within owner)) := by
    refine ⟨List.pairwise_map.2 legal.ordered, fun s hs => ?_, (List.nodup_append.1 hdistinct).2.1⟩
    obtain ⟨t, ht, rfl⟩ := List.mem_map.1 hs
    exact legal.variadic t ht
  cases r with
  | none => exact hwithin
  | some name =>
    refine ⟨List.pairwise_cons.2 ⟨fun s hs => ?_, hwithin.ordered⟩, List.forall_mem_cons.2 ⟨fun _ => rfl, hwithin.variadic⟩,
      by simpa using hdistinct⟩
    obtain ⟨t, ht, rfl⟩ := List.mem_map.1 hs
    exact ParamShape.receiver_precedes ht name owner

/-- What the parameters of a function are bound to is what the call of the other one hands on; it cannot hand on a keyword twice. -/
theorem evalArgs_eq (emits : Emits owner r own emitted call) {x : Value} {env extra locals ks : Entries Value}
    {vs : List Value} (handed : Handed extra ((behind r own).map Parameter.shape) env vs ks)
    (hreceiver : ∀ name ∈ r, locals.get? name = some x) (hlocals : ∀ e ∈ bound owner env, locals.get? e.1 = some e.2)
    {M : Type → Type} [Monad M] [LawfulMonad M] (s : Surroundings M) :
    evalArgs s locals [] [] call.args = pure (if ks.keys.Nodup then some (through r x ++ vs, ks) else none) := by
  obtain ⟨ps, hps, hargs⟩ := emits.args
  have hfront : Front locals (r.toList.map Arg.name) (through r x) := by
    cases r with
    | none => exact .nil
    | some name => exact .name (hreceiver name rfl) .nil
  have hlocals : ∀ e ∈ env, locals.get? (Text.privateName owner e.1) = some e.2 := fun e he =>
    hlocals _ (List.mem_map_of_mem he)
  rw [hargs, hfront.evalArgs, List.nil_append]
  split
  · rename_i hks
    exact evalArgs_forward s owner handed hps hlocals hks
  · rename_i hks
    exact evalArgs_clash s owner handed hps hlocals List.nodup_nil hks

/-- A generated function binds what it is called through to its receiver. -/
theorem bind?_emitted (emits : Emits owner r own emitted call) {x : Value} {args : List Value} {keywords env : Entries Value}
    (h : bind? emitted (through r x ++ args) keywords = some env) : ¬Meets r emitted keywords ∧
      ∃ rest, bind? (behind r emitted) args keywords = some rest ∧ env = (r.toList.map fun name => (name, x)) ++ rest := by
  obtain ⟨hreceiver, hopens, -⟩ := emits.parts
  rw [Parameter.bind?_through hopens] at h
  split at h
  · cases h
  rename_i hmeets
  obtain ⟨rest, hrest, rfl⟩ := Option.map_eq_some_iff.1 h
  refine ⟨hmeets, rest, hrest, ?_⟩
  cases r with
  | none => rw [Parameter.receive_none, Option.toList_none, List.map_nil, List.nil_append]
  | some name =>
    obtain ⟨p, hp, hname, -⟩ := hreceiver name rfl
    have hp : taking (some name) emitted = some p := hp
    simp [receive, hp, hname]

/-- The names of generated parameters are those that a class makes of the names of the others. -/
theorem exists_emitted (emits : Emits owner r own emitted call) {p : Parameter} (hp : p ∈ behind r own) :
    ∃ q ∈ behind r emitted, q.shape = p.shape.within owner := by
  obtain ⟨-, -, hshapes⟩ := emits.parts
  have hmem : p.shape.within owner ∈ (behind r emitted).map Parameter.shape := by
    rw [hshapes, Parameter.shape_within]
    exact List.mem_map_of_mem (List.mem_map_of_mem hp)
  obtain ⟨q, hq, heq⟩ := List.mem_map.1 hmem
  exact ⟨q, hq, heq⟩

theorem exists_own (emits : Emits owner r own emitted call) {q : Parameter} (hq : q ∈ behind r emitted) :
    ∃ p ∈ behind r own, q.shape = p.shape.within owner := by
  obtain ⟨-, -, hshapes⟩ := emits.parts
  have hmem : q.shape ∈ ((behind r own).map (Parameter.within owner)).map Parameter.shape := hshapes ▸ List.mem_map_of_mem hq
  rw [Parameter.shape_within, List.map_map] at hmem
  obtain ⟨p, hp, heq⟩ := List.mem_map.1 hmem
  exact ⟨p, hp, heq.symm⟩

/-- Where the arguments fit, a keyword meets either what takes the receiver in both functions or in neither. -/
theorem meets_iff (emits : Emits owner r own emitted call) (mirrors : Mirrors owner r own emitted) {args : List Value}
    {keywords env : Entries Value} (h : bind? (behind r own) args keywords = some env) :
    Meets r emitted keywords ↔ Meets r own keywords := by
  obtain ⟨hreceiver, -, -⟩ := emits.parts
  rcases Parameter.exists_named_of_bind? h with htable | hnamed
  · cases r with
    | none => simp [Meets, taking]
    | some name =>
      obtain ⟨p, hp, hname, -, hiff⟩ := hreceiver name rfl
      have hemitted : Meets (some name) emitted keywords ↔ p.isNamed = true ∧ name ∈ keywords.keys := by
        simp [Meets, show taking (some name) emitted = some p from hp, hname]
      rw [hemitted]
      rcases mirrors.keywords name rfl htable with ⟨q, hq, hkind⟩ | ⟨p', hp', hkind, hname'⟩
      · refine iff_of_false (fun h => hiff.1 h.1 q hq hkind) ?_
        rintro ⟨p', hp', hnamed, -⟩
        obtain ⟨-, -, hall⟩ := Parameter.of_taking emits.legal (Option.mem_toList.1 hp')
        have hrank : p'.kind.rank ≤ q.kind.rank := (hall q hq).1.1
        rw [hkind] at hrank
        rw [Parameter.isNamed, ParamKind.rank_injective (l := .positionalOnly) (Nat.le_zero.1 hrank)] at hnamed
        cases hnamed
      · obtain ⟨-, -, hall⟩ := Parameter.of_taking emits.legal hp'
        have hfree : ∀ q ∈ behind (some name) own, q.kind ≠ .positionalOnly := by
          intro q hq hqkind
          have hrank : p'.kind.rank ≤ q.kind.rank := (hall q hq).1.1
          rw [hkind, hqkind] at hrank
          exact absurd hrank (by decide)
        have hnamed' : p'.isNamed = true := by
          rw [Parameter.isNamed, hkind]
          rfl
        simp [Meets, show taking (some name) own = some p' from hp', hname', hnamed', hiff.2 hfree]
  · -- All keywords name parameters that both functions have behind what takes the receiver.
    refine iff_of_false ?_ ?_
    · rintro ⟨p, hp, -, hkey⟩
      obtain ⟨q, hq, hqnamed, hname⟩ := hnamed p.name hkey
      obtain ⟨q', hq', hshape⟩ := emits.exists_emitted hq
      obtain ⟨-, -, hall⟩ := Parameter.of_taking emits.legal_emitted (Option.mem_toList.1 hp)
      have hname' : q'.name = Text.privateName owner q.name := congrArg ParamShape.name hshape
      exact (hall q' hq').2 (hname'.trans ((mirrors.names q hq hqnamed).trans hname))
    · rintro ⟨p, hp, -, hkey⟩
      obtain ⟨q, hq, -, hname⟩ := hnamed p.name hkey
      obtain ⟨-, -, hall⟩ := Parameter.of_taking emits.legal (Option.mem_toList.1 hp)
      exact (hall q hq).2 hname

/-- The calls that fit are the same. -/
theorem fits_of_mirrors (emits : Emits owner r own emitted call) (mirrors : Mirrors owner r own emitted) (x : Value)
    (args : List Value) (keywords : Entries Value) :
    (bind? emitted (through r x ++ args) keywords).isSome = (bind? own (through r x ++ args) keywords).isSome := by
  obtain ⟨-, hopens, hshapes⟩ := emits.parts
  have hrest : (bind? (behind r emitted) args keywords).isSome = (bind? (behind r own) args keywords).isSome := by
    rw [Parameter.isSome_bind?_congr hshapes, Parameter.bind?_within mirrors.names, Option.isSome_map]
  rw [Parameter.bind?_through hopens, Parameter.bind?_through mirrors.opens]
  cases hown : bind? (behind r own) args keywords with
  | none =>
    rw [hown, Option.isSome_none, Option.isSome_eq_false_iff, Option.isNone_iff_eq_none] at hrest
    rw [hrest, Option.map_none, Option.map_none, ite_self, ite_self]
  | some env =>
    rw [hown] at hrest
    simp only [emits.meets_iff mirrors hown]
    split
    · rfl
    · rw [Option.isSome_map, hrest]
      rfl

/-- With the defaults of the other function, a generated one binds the same values, to the names that the class makes of them. -/
theorem bind?_behind_emitted (emits : Emits owner r own emitted call) (mirrors : Mirrors owner r own emitted)
    (args : List Value) (keywords : Entries Value) :
    bind? (behind r emitted) args keywords = (bind? (behind r own) args keywords).map (bound owner) := by
  obtain ⟨hreceiver, -, hshapes⟩ := emits.parts
  have hdefaults : (behind r emitted).map Parameter.default = (behind r own).map Parameter.default := by
    have hdefaults := mirrors.defaults
    cases r with
    | none => exact hdefaults
    | some name =>
      obtain ⟨p, hp, -⟩ := hreceiver name rfl
      obtain ⟨hemitted, -⟩ := Parameter.of_taking emits.legal_emitted hp
      rw [hemitted, List.map_cons] at hdefaults
      exact (List.cons.inj hdefaults).2
  have hbare : (behind r emitted).map Parameter.bare = ((behind r own).map (Parameter.within owner)).map Parameter.bare := by
    generalize behind r emitted = qs at hshapes hdefaults
    generalize behind r own = ps at hshapes hdefaults
    induction ps generalizing qs with
    | nil => rw [List.map_eq_nil_iff.1 hshapes]; rfl
    | cons p ps ih =>
      obtain ⟨q, qs, rfl, hq, hqs⟩ := List.map_eq_cons_iff.1 hshapes
      obtain ⟨hdefault, hrest⟩ := List.cons.inj hdefaults
      obtain ⟨name, kind, default, hint⟩ := q
      obtain ⟨hname, hkind, -⟩ := ParamShape.mk.injEq .. ▸ hq
      subst hname hkind hdefault
      rw [List.map_cons, List.map_cons, List.map_cons, ih qs hqs hrest]
      rfl
  rw [← Parameter.bind?_bare, hbare, Parameter.bind?_bare, Parameter.bind?_within mirrors.names]

/-- A function that is generated for one that it mirrors stands for it in all calls. -/
theorem standsFor_of_mirrors (emits : Emits owner r own emitted call) (mirrors : Mirrors owner r own emitted) (x : Value)
    (args : List Value) {keywords : Entries Value} (distinct : keywords.keys.Nodup) :
    StandsFor own emitted call (through r x ++ args) keywords := by
  refine ⟨emits.fits_of_mirrors mirrors x args keywords, fun env henv locals hlocals => ?_⟩
  obtain ⟨hmeets, rest, hrest, rfl⟩ := emits.bind?_emitted henv
  rw [emits.bind?_behind_emitted mirrors] at hrest
  obtain ⟨e, he, rfl⟩ := Option.map_eq_some_iff.1 hrest
  have legal := Parameter.legal_behind (r := r) emits.legal
  obtain ⟨hfrom, hsurplus⟩ := Parameter.bind?_eq_some he
  obtain ⟨vs, ks, handed⟩ := Parameter.exists_handed hfrom
  have hextra : (Parameter.extra (behind r own) keywords).keys.Nodup := Parameter.nodup_keys_extra distinct
  have hfree : ∀ s ∈ (behind r own).map Parameter.shape, s.isNamed = true →
      s.name ∉ (Parameter.extra (behind r own) keywords).keys := fun _ hs => Parameter.name_not_mem_extra hs
  have hagain : bind? (behind r own) vs ks = some e := Parameter.bind?_of_handed handed legal hextra hfree hsurplus rfl
  have hks := handed.nodup_keywords legal hextra hfree
  have hmeets : ¬Meets r own keywords := fun h => hmeets ((emits.meets_iff mirrors he).2 h)
  have hmeets' : ¬Meets r own ks := by
    rintro ⟨p, hp, hnamed, hkey⟩
    obtain ⟨-, -, hall⟩ := Parameter.of_taking emits.legal (Option.mem_toList.1 hp)
    rcases handed.mem_keys_iff p.name |>.1 hkey with ⟨s, hs, -, hname⟩ | ⟨-, hkey⟩
    · obtain ⟨q, hq, rfl⟩ := List.mem_map.1 hs
      exact (hall q hq).2 hname
    · obtain ⟨e, he, heq⟩ := List.mem_map.1 hkey
      exact hmeets ⟨p, hp, hnamed, heq ▸ List.mem_map_of_mem (List.mem_filter.1 he).1⟩
  have hreceiver : ∀ name ∈ r, locals.get? name = some x := fun name hname =>
    hlocals (name, x) (List.mem_append_left _ (List.mem_map.2 ⟨name, Option.mem_toList.2 hname, rfl⟩))
  have hrest : ∀ e' ∈ bound owner e, locals.get? e'.1 = some e'.2 := fun e' he' =>
    hlocals e' (List.mem_append_right _ he')
  refine ⟨through r x ++ vs, ks, fun s => ?_, ?_⟩
  · rw [emits.evalArgs_eq handed hreceiver hrest s, if_pos hks]
  · rw [Parameter.bind?_through mirrors.opens, Parameter.bind?_through mirrors.opens, if_neg hmeets, if_neg hmeets', hagain, he]

/-- If a generated function stands for another in a call that fits, then it hands each keyword on once, and what it hands on
is bound as the call itself. -/
theorem exists_handed_of_standsFor (emits : Emits owner r own emitted call) {x : Value} {args : List Value}
    {keywords env : Entries Value} (h : StandsFor own emitted call (through r x ++ args) keywords)
    (henv : bind? emitted (through r x ++ args) keywords = some env) :
    ∃ e vs ks, bind? (behind r emitted) args keywords = some (bound owner e) ∧
      Handed (Parameter.extra (behind r emitted) keywords) ((behind r own).map Parameter.shape) e vs ks ∧ ks.keys.Nodup ∧
      bind? own (through r x ++ vs) ks = bind? own (through r x ++ args) keywords := by
  obtain ⟨-, -, hshapes⟩ := emits.parts
  obtain ⟨-, rest, hrest, rfl⟩ := emits.bind?_emitted henv
  obtain ⟨vs, ks', hwithin⟩ := Parameter.exists_handed (Parameter.bind?_eq_some hrest).1
  rw [hshapes, Parameter.shape_within] at hwithin
  obtain ⟨e, ks, handed, rfl⟩ := hwithin.of_within
  have hlocals : ∀ e' ∈ (r.toList.map fun name => (name, x)) ++ bound owner e, Entries.get? _ e'.1 = some e'.2 :=
    fun e' he' => Entries.get?_of_mem ((Parameter.keys_of_bind? henv).symm ▸ emits.distinct) he'
  obtain ⟨ws, ks'', heval, hsame⟩ := h.hands _ henv _ hlocals
  have hgiven : some (ws, ks'') = if ks.keys.Nodup then some (through r x ++ vs, ks) else none :=
    (heval Surroundings.idle).symm.trans (emits.evalArgs_eq handed
      (fun name hname => hlocals (name, x) (List.mem_append_left _ (List.mem_map.2 ⟨name, Option.mem_toList.2 hname, rfl⟩)))
      (fun e' he' => hlocals e' (List.mem_append_right _ he')) Surroundings.idle)
  by_cases hks : ks.keys.Nodup
  · rw [if_pos hks] at hgiven
    cases hgiven
    exact ⟨e, vs, ks, hrest, handed, hks, hsame⟩
  · rw [if_neg hks] at hgiven
    cases hgiven

/-- What a generated function hands on is bound, behind what the other one is called through, to the same values. -/
theorem bind?_of_handed (emits : Emits owner r own emitted call)
    (names : ∀ p ∈ behind r own, p.isNamed = true → Text.privateName owner p.name = p.name) {keywords e ks : Entries Value}
    {vs : List Value}
    (handed : Handed (Parameter.extra (behind r emitted) keywords) ((behind r own).map Parameter.shape) e vs ks)
    (hextra : (Parameter.extra (behind r emitted) keywords).keys.Nodup)
    (hsurplus : Parameter.extra (behind r emitted) keywords = [] ∨
      ∃ s ∈ (behind r emitted).map Parameter.shape, s.kind = .varKeyword) : bind? (behind r own) vs ks = some e := by
  refine Parameter.bind?_of_handed handed (Parameter.legal_behind emits.legal) hextra (fun s hs hnamed => ?_)
    (hsurplus.imp_right ?_) rfl
  · obtain ⟨p, hp, rfl⟩ := List.mem_map.1 hs
    obtain ⟨q, hq, hshape⟩ := emits.exists_emitted hp
    have hfree : q.shape.name ∉ (Parameter.extra (behind r emitted) keywords).keys :=
      Parameter.name_not_mem_extra (List.mem_map_of_mem hq) (by rw [hshape]; exact hnamed)
    rw [hshape] at hfree
    have hname : Text.privateName owner p.name = p.name := names p hp hnamed
    have hfree : Text.privateName owner p.name ∉ (Parameter.extra (behind r emitted) keywords).keys := hfree
    rw [hname] at hfree
    exact hfree
  · rintro ⟨s, hs, hkind⟩
    obtain ⟨q, hq, rfl⟩ := List.mem_map.1 hs
    obtain ⟨p, hp, hshape⟩ := emits.exists_own hq
    rw [hshape] at hkind
    exact ⟨p.shape, List.mem_map_of_mem hp, hkind⟩

/-! ### Calls that tell -/

/-- Keywords for all parameters of some that have names. -/
def keywordsFor (ps : List Parameter) : Entries Value := (ps.filter Parameter.isNamed).map fun p => (p.name, .none)

theorem mem_keywordsFor {ps : List Parameter} {name : String} :
    name ∈ (keywordsFor ps).keys ↔ ∃ p ∈ ps, p.isNamed = true ∧ p.name = name := by
  simp [keywordsFor, Entries.keys, and_assoc]

theorem nodup_keywordsFor {ps qs : List Parameter} (legal : ParamShape.IsLegal (ps.map Parameter.shape)) (hsub : qs.Sublist ps) :
    (keywordsFor qs).keys.Nodup := by
  have hnames := legal.distinct
  rw [List.map_map] at hnames
  rw [keywordsFor, Entries.keys, List.map_map]
  exact hnames.sublist ((List.filter_sublist.trans hsub).map _)

/-- A call that gives all names fits. -/
theorem exists_bind?_keywordsFor {ps : List Parameter} (legal : ParamShape.IsLegal (ps.map Parameter.shape)) :
    ∃ env, bind? ps (List.replicate (Parameter.places ps) .none) (keywordsFor ps) = some env := by
  obtain ⟨env, henv, -⟩ := Parameter.exists_bind? (List.replicate (Parameter.places ps) .none) (keywordsFor ps) legal (by simp)
    (fun p hp hnamed _ => mem_keywordsFor.2 ⟨p, hp, hnamed, rfl⟩) (Or.inr fun name hname => mem_keywordsFor.1 hname)
  exact ⟨env, henv⟩

/-- Just these keywords are required by some parameters: those that have names and no defaults. -/
def Requires (ps : List Parameter) (keywords : Entries Value) : Prop :=
  ∀ name, name ∈ keywords.keys ↔ ∃ p ∈ ps, p.default = none ∧ p.isNamed = true ∧ p.name = name

theorem requires_keywordsFor (ps : List Parameter) : Requires ps (keywordsFor (ps.filter fun p => p.default.isNone)) := by
  intro name
  rw [mem_keywordsFor]
  simp [and_assoc]

section Requires

variable {ps : List Parameter} {keywords : Entries Value} (h : Requires ps keywords)

include h

theorem Requires.known : ∀ name ∈ keywords.keys, ∃ p ∈ ps, p.isNamed = true ∧ p.name = name := by
  intro name hname
  obtain ⟨p, hp, -, hnamed⟩ := (h name).1 hname
  exact ⟨p, hp, hnamed⟩

/-- A call that gives what is required fits, and leaves the rest to the defaults. -/
theorem Requires.exists_bind? (legal : ParamShape.IsLegal (ps.map Parameter.shape)) {args : List Value}
    (hargs : args.length = Parameter.places ps) :
    ∃ env, Parameter.bind? ps args keywords = some env ∧ Parameter.LeavesDefaults keywords ps env :=
  Parameter.exists_bind? args keywords legal hargs (fun p hp hnamed hdefault => (h p.name).2 ⟨p, hp, hdefault, hnamed, rfl⟩)
    (Or.inr h.known)

theorem Requires.free (legal : ParamShape.IsLegal (ps.map Parameter.shape)) :
    ∀ p ∈ ps, p.default ≠ none → p.isNamed = true → p.name ∉ keywords.keys := by
  intro p hp hdefault _ hkey
  obtain ⟨p', hp', hnone, -, hname⟩ := (h p.name).1 hkey
  have hnames := legal.distinct
  rw [List.map_map] at hnames
  have heq : p' = p := List.inj_on_of_nodup_map hnames hp' hp hname
  exact hdefault (heq ▸ hnone)

end Requires

/-- Keywords of parameters that a function shows do not meet the one that takes what it is called through. -/
theorem not_meets_of_known {own : List Parameter} (legal : ParamShape.IsLegal (own.map Parameter.shape))
    {keywords : Entries Value} (h : ∀ name ∈ keywords.keys, ∃ p ∈ behind r own, p.isNamed = true ∧ p.name = name) :
    ¬Meets r own keywords := by
  rintro ⟨p, hp, -, hkey⟩
  obtain ⟨q, hq, -, hname⟩ := h p.name hkey
  exact ((Parameter.of_taking legal (Option.mem_toList.1 hp)).2.2 q hq).2 hname

section Necessary

variable (emits : Emits owner r own emitted call)
  (stands : ∀ x args keywords, keywords.keys.Nodup → StandsFor own emitted call (through r x ++ args) keywords)

include emits stands

/-- A function that cannot be called through anything is not mirrored: the generated one can. -/
theorem opens_of_stands : Opens r own := by
  intro hr
  obtain ⟨name, rfl⟩ := Option.isSome_iff_exists.1 hr
  by_contra hclosed
  have hlate : ∀ p ∈ own, 2 < p.kind.rank := by
    have hfirst : ∀ p ps, own = p :: ps → 2 < p.kind.rank := by
      rintro p ps rfl
      obtain hkind | hkind | hkind | hkind := p.kind_cases
      · exact absurd ⟨p, ps, rfl, Or.inl hkind⟩ hclosed
      · rw [hkind]; decide
      · exact absurd ⟨p, ps, rfl, Or.inr hkind⟩ hclosed
      · rw [hkind]; decide
    intro p hp
    cases hown : own with
    | nil => rw [hown] at hp; cases hp
    | cons q ps =>
      have hq := hfirst q ps hown
      rw [hown] at hp
      rcases List.mem_cons.1 hp with rfl | hp
      · exact hq
      · have hrank := ((List.pairwise_cons.1 (hown ▸ emits.legal).ordered).1 p.shape (List.mem_map_of_mem hp)).1
        exact Nat.lt_of_lt_of_le hq hrank
  obtain ⟨-, hopens, -⟩ := emits.parts
  have legal := Parameter.legal_behind (r := some name) emits.legal_emitted
  have hmeets : ¬Meets (some name) emitted (keywordsFor (behind (some name) emitted)) :=
    not_meets_of_known emits.legal_emitted fun name hname => mem_keywordsFor.1 hname
  obtain ⟨env, henv⟩ := exists_bind?_keywordsFor legal
  have hfits := (stands .none (List.replicate (Parameter.places (behind (some name) emitted)) .none) _
    (nodup_keywordsFor legal (List.Sublist.refl _))).fits
  rw [Parameter.bind?_through hopens, if_neg hmeets, henv] at hfits
  have hnone : ∀ args keywords, bind? own (through (some name) .none ++ args) keywords = none := fun args keywords =>
    Parameter.bind?_late hlate
  rw [hnone] at hfits
  cases hfits

/-- Nor is one with a named parameter that is private to the class: given by its name, it is lost on the way. -/
theorem names_of_stands {p : Parameter} (hp : p ∈ behind r own) (hnamed : p.isNamed = true) :
    Text.privateName owner p.name = p.name := by
  by_contra hprivate
  have legal := Parameter.legal_behind (r := r) emits.legal
  have opens := emits.opens_of_stands stands
  obtain ⟨-, -, hshapes⟩ := emits.parts
  obtain ⟨e, he⟩ := exists_bind?_keywordsFor legal
  have hmeets : ¬Meets r own (keywordsFor (behind r own)) :=
    not_meets_of_known emits.legal fun name hname => mem_keywordsFor.1 hname
  have distinct := nodup_keywordsFor legal (List.Sublist.refl _)
  have hstands := stands .none (List.replicate (Parameter.places (behind r own)) .none) _ distinct
  have hkey : p.name ∈ (keywordsFor (behind r own)).keys := mem_keywordsFor.2 ⟨p, hp, hnamed, rfl⟩
  have hextra : (Parameter.extra (behind r emitted) (keywordsFor (behind r own))).keys.Nodup :=
    Parameter.nodup_keys_extra distinct
  generalize keywordsFor (behind r own) = keywords at he hmeets hkey hstands hextra
  have hown : bind? own (through r .none ++ List.replicate (Parameter.places (behind r own)) .none) keywords = _ :=
    Parameter.bind?_through opens
  rw [if_neg hmeets, he, Option.map_some] at hown
  obtain ⟨env, henv⟩ := Option.isSome_iff_exists.1 (hstands.fits.trans (congrArg Option.isSome hown))
  obtain ⟨e', vs, ks, hrest, handed, hks, hsame⟩ := emits.exists_handed_of_standsFor hstands henv
  -- The keyword is surplus to the generated function, and so handed on beside the parameter.
  have hlost : p.name ∈ (Parameter.extra (behind r emitted) keywords).keys := by
    obtain ⟨e, he, hname⟩ := List.mem_map.1 hkey
    refine List.mem_map.2 ⟨e, List.mem_filter.2 ⟨he, ?_⟩, hname⟩
    rw [Bool.not_eq_true', List.any_eq_false]
    intro q hq hmet
    rw [Bool.and_eq_true, beq_iff_eq, hname] at hmet
    have hq : q.shape ∈ ((behind r own).map (Parameter.within owner)).map Parameter.shape := hshapes ▸ List.mem_map_of_mem hq
    obtain ⟨q', hq', hshape⟩ := List.mem_map.1 hq
    obtain ⟨p', -, rfl⟩ := List.mem_map.1 hq'
    have hname' : Text.privateName owner p'.name = q.name := congrArg ParamShape.name hshape
    exact Text.privateName_ne_of_private hprivate p'.name (hname'.trans hmet.2)
  have htable : ∃ s ∈ (behind r own).map Parameter.shape, s.kind = .varKeyword := by
    rcases (Parameter.bind?_eq_some hrest).2 with hnil | ⟨s, hs, hkind⟩
    · rw [hnil] at hlost
      cases hlost
    · rw [hshapes, Parameter.shape_within] at hs
      obtain ⟨t, ht, rfl⟩ := List.mem_map.1 hs
      exact ⟨t, ht, hkind⟩
  have hkey : p.name ∈ ks.keys := (handed.mem_keys_iff p.name).2 (Or.inr ⟨htable, hlost⟩)
  obtain hkind | hkind | hkind | hkind := p.kind_cases
  · -- Given by its place as well as by its name, it does not fit.
    have hnone : Parameter.bindFrom ks (Parameter.extra (behind r own) ks) (behind r own) vs = none :=
      Parameter.bindFrom_of_named handed legal hp hkind hnamed hkey
    rw [Parameter.bind?_through opens, hown, Parameter.bind?_eq_ite, hnone, ite_self, Option.map_none, ite_self] at hsame
    cases hsame
  · exact (handed.nodup_keys_iff legal hextra).1 hks p.shape (List.mem_map_of_mem hp) hkind htable hlost
  all_goals
    rw [Parameter.isNamed, hkind] at hnamed
    cases hnamed

/-- Nor is one that takes any keywords, that of the receiver's name among them. -/
theorem keywords_of_stands {name : String} (hr : r = some name) (htable : ∃ p ∈ behind r own, p.kind = .varKeyword) :
    (∃ p ∈ behind r own, p.kind = .positionalOnly) ∨ ∃ p ∈ taking r own, p.kind = .positionalOrKeyword ∧ p.name = name := by
  subst hr
  by_contra hneither
  rw [not_or] at hneither
  obtain ⟨hfree, hother⟩ := hneither
  have legal := Parameter.legal_behind (r := some name) emits.legal
  have opens := emits.opens_of_stands stands
  obtain ⟨hreceiver, hopens, -⟩ := emits.parts
  obtain ⟨q, hq, hname, -, hiff⟩ := hreceiver name rfl
  have hapart : name ∉ (keywordsFor (behind (some name) own)).keys := by
    intro hkey
    obtain ⟨p, hp, hnamed, hpname⟩ := mem_keywordsFor.1 hkey
    obtain ⟨q', hq', hshape⟩ := emits.exists_emitted hp
    have hname' : q'.name = Text.privateName owner p.name := congrArg ParamShape.name hshape
    rw [hpname, emits.plain name rfl] at hname'
    exact ((Parameter.of_taking emits.legal_emitted hq).2.2 q' hq').2 (hname'.trans hname.symm)
  obtain ⟨keywords, hkeys⟩ : ∃ keywords : Entries Value,
      keywords.keys = name :: (keywordsFor (behind (some name) own)).keys := ⟨(name, .none) :: keywordsFor _, rfl⟩
  have distinct : keywords.keys.Nodup := by
    rw [hkeys]
    exact List.nodup_cons.2 ⟨hapart, nodup_keywordsFor legal (List.Sublist.refl _)⟩
  have hmeets : ¬Meets (some name) own keywords := by
    rintro ⟨p, hp, hnamed, hkey⟩
    have hp := Option.mem_toList.1 hp
    rw [hkeys] at hkey
    obtain ⟨-, hpositional, hall⟩ := Parameter.of_taking emits.legal hp
    rcases List.mem_cons.1 hkey with heq | hkey
    · refine hother ⟨p, hp, ?_, heq⟩
      simp only [Parameter.isPositional, Parameter.isNamed, Bool.or_eq_true, beq_iff_eq] at hpositional hnamed
      rcases hnamed with hkind | hkind
      · exact hkind
      · rw [hkind] at hpositional
        simp at hpositional
    · obtain ⟨p', hp', -, hname⟩ := mem_keywordsFor.1 hkey
      exact (hall p' hp').2 hname
  obtain ⟨e, he, -⟩ := Parameter.exists_bind? (List.replicate (Parameter.places (behind (some name) own)) .none) keywords legal
    (by simp) (fun p hp hnamed _ => by
      rw [hkeys]
      exact List.mem_cons_of_mem _ (mem_keywordsFor.2 ⟨p, hp, hnamed, rfl⟩)) (Or.inl htable)
  have hfits := (stands .none (List.replicate (Parameter.places (behind (some name) own)) .none) keywords distinct).fits
  have hmet : Meets (some name) emitted keywords := by
    refine ⟨q, Option.mem_toList.2 hq, hiff.2 fun p hp hkind => hfree ⟨p, hp, hkind⟩, ?_⟩
    rw [hkeys, hname]
    exact List.mem_cons_self
  rw [Parameter.bind?_through hopens, Parameter.bind?_through opens, if_pos hmet, if_neg hmeets, he] at hfits
  cases hfits

omit stands in
/-- What the one function requires, the generated one does. -/
theorem requires_emitted (names : ∀ p ∈ behind r own, p.isNamed = true → Text.privateName owner p.name = p.name)
    {keywords : Entries Value} (h : Requires (behind r own) keywords) : Requires (behind r emitted) keywords := by
  have hmatch : ∀ {p q : Parameter}, p ∈ behind r own → q.shape = p.shape.within owner →
      ((q.default = none ↔ p.default = none) ∧ (q.isNamed = true ↔ p.isNamed = true)) ∧
        (p.isNamed = true → q.name = p.name) := by
    intro p q hp hshape
    have hdefault : q.default.isSome = p.default.isSome := congrArg ParamShape.hasDefault hshape
    have hnamed : q.isNamed = p.isNamed := congrArg ParamShape.isNamed hshape
    refine ⟨⟨?_, by rw [hnamed]⟩, fun h => (congrArg ParamShape.name hshape).trans (names p hp h)⟩
    rw [← Option.not_isSome_iff_eq_none, hdefault, Option.not_isSome_iff_eq_none]
  intro name
  rw [h name]
  constructor
  · rintro ⟨p, hp, hdefault, hnamed, rfl⟩
    obtain ⟨q, hq, hshape⟩ := emits.exists_emitted hp
    obtain ⟨⟨h₁, h₂⟩, h₃⟩ := hmatch hp hshape
    exact ⟨q, hq, h₁.2 hdefault, h₂.2 hnamed, h₃ hnamed⟩
  · rintro ⟨q, hq, hdefault, hnamed, rfl⟩
    obtain ⟨p, hp, hshape⟩ := emits.exists_own hq
    obtain ⟨⟨h₁, h₂⟩, h₃⟩ := hmatch hp hshape
    exact ⟨p, hp, h₁.1 hdefault, h₂.1 hnamed, (h₃ (h₂.1 hnamed)).symm⟩

/-- Handed on, the binding of the generated function comes back as that of the other one. -/
theorem eq_bound_of_stands {args : List Value} {keywords e e' : Entries Value} (distinct : keywords.keys.Nodup)
    (hknown : ∀ name ∈ keywords.keys, ∃ p ∈ behind r own, p.isNamed = true ∧ p.name = name)
    (he : bind? (behind r own) args keywords = some e) (he' : bind? (behind r emitted) args keywords = some e') :
    e' = bound owner e := by
  have opens := emits.opens_of_stands stands
  have hown : bind? own (through r .none ++ args) keywords = _ := Parameter.bind?_through opens
  rw [if_neg (not_meets_of_known emits.legal hknown), he, Option.map_some] at hown
  have hstands := stands .none args keywords distinct
  obtain ⟨env, henv⟩ := Option.isSome_iff_exists.1 (hstands.fits.trans (congrArg Option.isSome hown))
  obtain ⟨e₁, vs, ks, hrest, handed, hks, hback⟩ := emits.exists_handed_of_standsFor hstands henv
  obtain rfl := Option.some.inj (he'.symm.trans hrest)
  have hforward := emits.bind?_of_handed (fun p hp hnamed => emits.names_of_stands stands hp hnamed) handed
    (Parameter.nodup_keys_extra distinct) (Parameter.bind?_eq_some hrest).2
  rw [hown, Parameter.bind?_through opens, hforward] at hback
  split at hback
  · cases hback
  · rw [Parameter.receive_injective emits.legal opens hforward he (Option.some.inj hback)]

/-- Nor is one whose defaults are others: they show when nothing is given that need not be. -/
theorem defaults_of_stands :
    emitted.map Parameter.default = (r.toList.map fun _ => none) ++ (behind r own).map Parameter.default := by
  have legal := Parameter.legal_behind (r := r) emits.legal
  have legal' := Parameter.legal_behind (r := r) emits.legal_emitted
  obtain ⟨hreceiver, -, hshapes⟩ := emits.parts
  have required := requires_keywordsFor (behind r own)
  have required' := emits.requires_emitted (fun p hp hnamed => emits.names_of_stands stands hp hnamed) required
  have hplaces : Parameter.places (behind r own) = Parameter.places (behind r emitted) :=
    ((Parameter.places_congr hshapes).trans (Parameter.places_within owner _)).symm
  obtain ⟨e, he, hleft⟩ := required.exists_bind? legal (List.length_replicate (n := Parameter.places (behind r own)) (a := .none))
  obtain ⟨e', he', hleft'⟩ := required'.exists_bind? legal' (List.length_replicate.trans hplaces)
  have hsame : e' = bound owner e :=
    emits.eq_bound_of_stands stands (nodup_keywordsFor legal List.filter_sublist) required.known he he'
  have htail : (behind r emitted).map Parameter.default = (behind r own).map Parameter.default := by
    have hdistinct : (bound owner e).keys.Nodup := by
      have hnames := legal'.distinct
      rw [List.map_map] at hnames
      rw [← hsame, Parameter.keys_of_bind? he']
      exact hnames
    exact Parameter.map_default_of_leaves hshapes hdistinct hleft (hsame ▸ hleft') (required.free legal) (required'.free legal')
  cases r with
  | none => exact htail
  | some name =>
    obtain ⟨p, hp, -, hdefault, -⟩ := hreceiver name rfl
    obtain ⟨hemitted, -⟩ := Parameter.of_taking emits.legal_emitted hp
    rw [hemitted, List.map_cons, hdefault, htail]
    rfl

end Necessary

/-- A generated function stands for the one that it calls, in all calls, exactly if it mirrors it. -/
theorem standsFor_iff (emits : Emits owner r own emitted call) :
    (∀ x args keywords, keywords.keys.Nodup → StandsFor own emitted call (through r x ++ args) keywords) ↔
      Mirrors owner r own emitted :=
  ⟨fun stands => ⟨fun _ hp hnamed => emits.names_of_stands stands hp hnamed, emits.opens_of_stands stands,
    fun _ hr htable => emits.keywords_of_stands stands hr htable, emits.defaults_of_stands stands⟩,
    fun mirrors x args _ distinct => emits.standsFor_of_mirrors mirrors x args distinct⟩

end Emits

end Source

end Amalgam
