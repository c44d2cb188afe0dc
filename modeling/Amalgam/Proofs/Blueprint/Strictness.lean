import Amalgam.Proofs.Blueprint.Outline

/-!
# Strict plans and lenient ones

A strict plan and a lenient one of the same request go in lockstep (`Planner.Lockstep`): as long as the lenient one
reports nothing as dropped, both do the same, and where it reports something first, the strict one stops with just that.
Sequences of steps in lockstep are in lockstep (`Lockstep.bind`), and so is every step of a plan, hence a whole build
(`lockstep_build`). `strict_build` says what this comes to for blueprints, failures and the texts of both.
-/

namespace Amalgam

/-- What a notice reports as dropped. -/
def Notice.dropped? : Notice → Option Unknown
  | .ignored cause => some cause
  | _ => none

theorem Notice.dropped?_eq_some {n : Notice} {cause : Unknown} : n.dropped? = some cause ↔ n = .ignored cause := by
  cases n <;> simp [dropped?]

/-- The text of a report is the message of its cause, with nothing in it read as mark-up, and that it is ignored. -/
theorem Notice.text_ignored (cause : Unknown) :
    (ignored cause).text = Level.warning.sign ++ (Text.Markup.escape cause.message ++ " Ignoring it.") := rfl

variable {σ α β : Type}

namespace Planner

/-- The lenient plan goes on where something is dropped, the strict one stops with the first of it; else both agree. -/
def Lockstep (strict lenient : Planner σ α) : Prop :=
  ∀ t, ∃ told, (lenient.runFrom t).2.notices = t.notices ++ told ∧
    match told.findSome? Notice.dropped? with
    | none => strict.runFrom t = lenient.runFrom t
    | some cause => (strict.runFrom t).1 = .error (.refusal (.unknown cause))

/-- A plan that leaves no notice is in lockstep with itself. -/
theorem Lockstep.of_silent {x : Planner σ α} (h : ∀ t, (x.runFrom t).2.notices = t.notices) : Lockstep x x :=
  fun t => ⟨[], by rw [h, List.append_nil], rfl⟩

theorem lockstep_pure (a : α) : Lockstep (pure a : Planner σ α) (pure a) := .of_silent fun _ => rfl

theorem lockstep_refuse (cause : Refusal) : Lockstep (Act.refuse cause : Planner σ α) (Act.refuse cause) :=
  .of_silent fun _ => rfl

theorem lockstep_ofExcept (r : Except Failure α) : Lockstep (Act.ofExcept r : Planner σ α) (Act.ofExcept r) :=
  .of_silent fun _ => rfl

theorem lockstep_get : Lockstep (get : Planner σ (Planning σ)) get := .of_silent fun _ => rfl

theorem lockstep_ask (question : Act σ α) : Lockstep (ask question) (ask question) := .of_silent fun _ => rfl

theorem lockstep_note {n : Notice} (h : n.dropped? = none) : Lockstep (note n : Planner σ Unit) (note n) := by
  intro t
  refine ⟨[n], rfl, ?_⟩
  rw [List.findSome?_cons_of_isNone (by rw [h]; rfl)]
  rfl

theorem lockstep_unknown (cause : Unknown) :
    Lockstep (unknown true cause : Planner σ Unit) (unknown false cause) := fun _ => ⟨[.ignored cause], rfl, rfl⟩

/-- Sequences are in lockstep if their parts are: what the second part reports comes after what the first one did. -/
theorem Lockstep.bind {x y : Planner σ α} {f g : α → Planner σ β} (hx : Lockstep x y) (hf : ∀ a, Lockstep (f a) (g a)) :
    Lockstep (x >>= f) (y >>= g) := by
  intro t
  obtain ⟨told, htold, hsame⟩ := hx t
  rw [Act.runFrom_bind, Act.runFrom_bind]
  generalize hrun : y.runFrom t = done at htold hsame
  obtain ⟨r, u⟩ := done
  dsimp only at htold
  cases hfirst : told.findSome? Notice.dropped? with
  | some cause =>
    -- The strict plan has stopped in its first part, whatever the lenient one goes on to do.
    rw [hfirst] at hsame
    have hstop : ∀ more : List Notice, (told ++ more).findSome? Notice.dropped? = some cause := by
      intro more
      rw [List.findSome?_append, hfirst, Option.some_or]
    generalize x.runFrom t = stopped at hsame
    obtain ⟨r', v⟩ := stopped
    dsimp only at hsame
    subst hsame
    cases r with
    | error e => exact ⟨told, htold, by rw [hfirst]⟩
    | ok a =>
      obtain ⟨more, hmore, -⟩ := hf a u
      exact ⟨told ++ more, by rw [hmore, htold, List.append_assoc], by rw [hstop]⟩
  | none =>
    rw [hfirst] at hsame
    rw [hsame]
    cases r with
    | error e => exact ⟨told, htold, by rw [hfirst]⟩
    | ok a =>
      obtain ⟨more, hmore, hrest⟩ := hf a u
      refine ⟨told ++ more, by rw [hmore, htold, List.append_assoc], ?_⟩
      rwa [List.findSome?_append, hfirst, Option.none_or]

theorem Lockstep.mapM {f g : α → Planner σ β} {as : List α} (h : ∀ a ∈ as, Lockstep (f a) (g a)) :
    Lockstep (as.mapM f) (as.mapM g) := by
  induction as with
  | nil => exact lockstep_pure _
  | cons a as ih =>
    rw [List.mapM_cons, List.mapM_cons]
    refine (h a List.mem_cons_self).bind fun b => ?_
    exact (ih fun x hx => h x (List.mem_cons_of_mem _ hx)).bind fun bs => lockstep_pure _

end Planner

open Planner

/-! ## The steps that report -/

theorem Cutpoints.lockstep_usable (phase : Phase) (members names : List String) :
    Lockstep (usable true phase members names : Planner σ (List String)) (usable false phase members names) := by
  induction names with
  | nil => exact lockstep_pure _
  | cons name rest ih =>
    unfold usable
    split
    · exact ih.bind fun _ => lockstep_pure _
    split
    · exact (lockstep_unknown _).bind fun _ => ih
    split
    · exact (lockstep_unknown _).bind fun _ => ih
    · exact ih.bind fun _ => lockstep_pure _

theorem CombinatorSpec.lockstep_resolve (member : String) (contributors : List SymbolRef) (spec : Option CombinatorSpec) :
    Lockstep (resolve member contributors spec : Planner σ _) (resolve member contributors spec) := by
  unfold resolve
  split
  · exact lockstep_pure _
  split
  · exact lockstep_pure _
  dsimp only
  split
  · exact (lockstep_note rfl).bind fun _ => lockstep_pure _
  · exact lockstep_pure _

namespace Blueprint

theorem lockstep_knownSpecs (members : List String) (specs : Entries CombinatorSpec) :
    Lockstep (knownSpecs true members specs : Planner σ _) (knownSpecs false members specs) := by
  induction specs with
  | nil => exact lockstep_pure _
  | cons e rest ih =>
    obtain ⟨member, spec⟩ := e
    unfold knownSpecs
    split
    · exact ih.bind fun _ => lockstep_pure _
    · exact (lockstep_unknown _).bind fun _ => ih

theorem lockstep_dropAwaited (member : String) (calls : List Advice.Call) :
    Lockstep (dropAwaited true member calls : Planner σ _) (dropAwaited false member calls) := by
  induction calls with
  | nil => exact lockstep_pure _
  | cons call rest ih =>
    unfold dropAwaited
    split
    · exact (lockstep_unknown _).bind fun _ => ih
    · exact ih.bind fun _ => lockstep_pure _

theorem lockstep_usablePlan (member : String) (isAsync : Bool) (plan : Advice.Plan) :
    Lockstep (usablePlan true member isAsync plan : Planner σ _) (usablePlan false member isAsync plan) := by
  unfold usablePlan
  split
  · exact lockstep_pure _
  · refine (lockstep_dropAwaited member _).bind fun before => ?_
    exact (lockstep_dropAwaited member _).bind fun after => lockstep_pure _

theorem lockstep_planMethod (c : Context) (member : String) (definitions : List (SymbolRef × Signature)) :
    Lockstep (planMethod true c member definitions : Planner σ _) (planMethod false c member definitions) := by
  unfold planMethod
  split
  · exact lockstep_pure _
  dsimp only
  split
  · exact lockstep_pure _
  refine (CombinatorSpec.lockstep_resolve member _ _).bind fun joined => ?_
  obtain ⟨spec, ordered⟩ := joined
  refine (lockstep_usablePlan member _ _).bind fun plan => ?_
  exact (lockstep_ofExcept _).bind fun method => lockstep_pure _

theorem lockstep_planMethods (c : Context) (members : MemberMap) :
    Lockstep (planMethods true c members : Planner σ _) (planMethods false c members) := by
  induction members with
  | nil => exact lockstep_pure _
  | cons e rest ih =>
    obtain ⟨member, definitions⟩ := e
    unfold planMethods
    exact (lockstep_planMethod c member definitions).bind fun here => ih.bind fun more => lockstep_pure _

/-! ## The steps that do not -/

variable {p : Provider σ}

theorem lockstep_resolveMix (q : Request) : Lockstep (resolveMix p q) (resolveMix p q) := by
  unfold resolveMix
  refine (lockstep_ask _).bind fun base => (Lockstep.mapM fun t _ => lockstep_ask _).bind fun mixins => ?_
  split
  · exact lockstep_refuse _
  · exact lockstep_pure _

theorem lockstep_setsAbove (set : SymbolRef) : Lockstep (setsAbove p set) (setsAbove p set) := by
  intro t
  rw [runFrom_setsAbove, runFrom_ask]
  generalize (p.capabilitySets set).runFrom t.provider = served
  obtain ⟨r, s⟩ := served
  rcases r with (_ | _ | _ | _ | _ | _ | _) | sets
  case error.refusal => exact ⟨[.noAncestors set.path], rfl, rfl⟩
  all_goals exact ⟨[], (List.append_nil _).symm, rfl⟩

theorem lockstep_minimal (sets : List SymbolRef) : Lockstep (minimal p sets) (minimal p sets) := by
  have himplied : ∀ sets, Lockstep (implied p sets) (implied p sets) := by
    intro sets
    induction sets with
    | nil => exact lockstep_pure _
    | cons set rest ih => exact (lockstep_setsAbove set).bind fun above => ih.bind fun more => lockstep_pure _
  exact (himplied sets).bind fun above => lockstep_pure _

theorem lockstep_planHeader (name : String) (x : Mix) : Lockstep (planHeader p name x) (planHeader p name x) := by
  unfold planHeader
  refine (Lockstep.mapM fun r _ => lockstep_ask _).bind fun served => ?_
  exact (lockstep_minimal _).bind fun extra => lockstep_pure _

theorem lockstep_memberMap (role : Role) (members : MemberMap) (contributors : List SymbolRef) :
    Lockstep (memberMap p role members contributors) (memberMap p role members contributors) := by
  induction contributors generalizing role members with
  | nil => exact lockstep_pure _
  | cons r rest ih => exact (lockstep_ask _).bind fun eligible => ih .mixin _

/-! ## Whole plans -/

theorem lockstep_planContext (d : Defaults) (q : Request) (x : Mix) (members : MemberMap) :
    Lockstep (planContext p d true q x members) (planContext p d false q x members) := by
  unfold planContext
  refine (lockstep_ask _).bind fun specs => (lockstep_knownSpecs _ _).bind fun specs => ?_
  refine (lockstep_ofExcept _).bind fun beforeNames => (Cutpoints.lockstep_usable _ _ _).bind fun before => ?_
  exact (lockstep_ofExcept _).bind fun afterNames => (Cutpoints.lockstep_usable _ _ _).bind fun after => lockstep_pure _

theorem lockstep_outline (d : Defaults) (q : Request) : Lockstep (outline p d true q) (outline p d false q) := by
  unfold outline
  split
  · exact lockstep_refuse _
  refine (lockstep_resolveMix q).bind fun mix => (lockstep_planHeader q.name mix).bind fun header => ?_
  refine (lockstep_ask _).bind fun fields => (lockstep_memberMap .base [] _).bind fun members => ?_
  refine (lockstep_planContext d q mix members).bind fun context => ?_
  exact (lockstep_planMethods context members).bind fun methods => lockstep_pure _

theorem lockstep_build (d : Defaults) (q : Request) : Lockstep (build p d true q) (build p d false q) := by
  unfold build
  refine (lockstep_outline d q).bind fun o => lockstep_get.bind fun t => ?_
  exact (lockstep_ofExcept _).bind fun claims => (lockstep_note rfl).bind fun _ => lockstep_pure _

/--
Strictness changes how unknown names are met, and nothing else. For every provider in any state and every request, the
notices that a lenient build adds decide what the strict one does. It gives a blueprint exactly if the lenient build
gives the same one and reports nothing as dropped, and where the lenient build reports something, the strict one is
refused with the very message of the first report.
-/
theorem strict_build (p : Provider σ) (d : Defaults) (q : Request) (t : Planning σ) :
    ∃ told, ((build p d false q).runFrom t).2.notices = t.notices ++ told ∧
      (∀ b u, (build p d true q).runFrom t = (.ok b, u) ↔
        (build p d false q).runFrom t = (.ok b, u) ∧ ∀ cause, Notice.ignored cause ∉ told) ∧
      ∀ earlier cause later, told = earlier ++ .ignored cause :: later → (∀ c, Notice.ignored c ∉ earlier) →
        ∃ refusal, ((build p d true q).runFrom t).1 = .error (.refusal refusal) ∧
          (Notice.ignored cause).text =
            Level.warning.sign ++ (Text.Markup.escape refusal.message ++ " Ignoring it.") := by
  obtain ⟨told, htold, hsame⟩ := lockstep_build (p := p) d q t
  have hnone : told.findSome? Notice.dropped? = none ↔ ∀ cause, Notice.ignored cause ∉ told := by
    rw [List.findSome?_eq_none_iff]
    constructor
    · intro h cause hmem
      cases h _ hmem
    · intro h n hn
      refine Option.eq_none_iff_forall_ne_some.2 fun cause hcause => h cause ?_
      rwa [← Notice.dropped?_eq_some.1 hcause]
  refine ⟨told, htold, fun b u => ?_, fun earlier cause later hsplit hearlier => ⟨.unknown cause, ?_, rfl⟩⟩
  · rw [← hnone]
    cases hfirst : told.findSome? Notice.dropped? with
    | none =>
      rw [hfirst] at hsame
      rw [hsame]
      simp
    | some cause =>
      rw [hfirst] at hsame
      constructor
      · intro h
        rw [h] at hsame
        cases hsame
      · rintro ⟨-, h⟩
        cases h
  · have hfirst : told.findSome? Notice.dropped? = some cause := by
      rw [hsplit, List.findSome?_append, List.findSome?_eq_none_iff.2, Option.none_or]
      · rfl
      · intro n hn
        refine Option.eq_none_iff_forall_ne_some.2 fun c hc => hearlier c ?_
        rwa [← Notice.dropped?_eq_some.1 hc]
    rwa [hfirst] at hsame

end Blueprint

/-- A request whose combinator and cutpoint misspell the only member there is. -/
def Request.misspelt : Request where
  name := "Sale"
  base := .text "shop:Cart"
  combinators := [("pya", .single (.text "shop:add"))]
  before := .one "apy"

/-- The lenient build reports both names, the strict one refuses the first of them. -/
theorem Blueprint.strict_build_misspelt : ∃ told refusal,
    ((build (Provider.ofManifests [{ ref := ⟨"shop", "Cart"⟩, members := [{ name := "pay" }] }])
      ⟨.function 0, .function 1, .cls 2, .cls 3, .function 4⟩ false .misspelt).runFrom ⟨(), []⟩).2.notices = told ∧
    told = [.ignored (.combinator "pya"), .ignored (.cutpoint .before "apy"), .built "Sale" 0] ∧
    ((build (Provider.ofManifests [{ ref := ⟨"shop", "Cart"⟩, members := [{ name := "pay" }] }])
      ⟨.function 0, .function 1, .cls 2, .cls 3, .function 4⟩ true .misspelt).runFrom ⟨(), []⟩).1 =
        .error (.refusal refusal) ∧
    (Notice.ignored (.combinator "pya")).text =
      Level.warning.sign ++ (Text.Markup.escape refusal.message ++ " Ignoring it.") := by
  obtain ⟨told, htold, -, hfirst⟩ := strict_build
    (Provider.ofManifests [{ ref := ⟨"shop", "Cart"⟩, members := [{ name := "pay" }] }])
    ⟨.function 0, .function 1, .cls 2, .cls 3, .function 4⟩ .misspelt ⟨(), []⟩
  have hnotices : ((build (Provider.ofManifests [{ ref := ⟨"shop", "Cart"⟩, members := [{ name := "pay" }] }])
      ⟨.function 0, .function 1, .cls 2, .cls 3, .function 4⟩ false .misspelt).runFrom ⟨(), []⟩).2.notices =
        [.ignored (.combinator "pya"), .ignored (.cutpoint .before "apy"), .built "Sale" 0] := by
    decide +kernel
  rw [hnotices, List.nil_append] at htold
  obtain ⟨refusal, hrefused, htext⟩ := hfirst [] (.combinator "pya") [.ignored (.cutpoint .before "apy"), .built "Sale" 0]
    htold.symm fun c => List.not_mem_nil
  exact ⟨told, refusal, hnotices.trans htold, htold.symm, hrefused, htext⟩

end Amalgam
