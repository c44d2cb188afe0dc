import Amalgam.Proofs.Blueprint.Registration
import Amalgam.Proofs.Outcome

/-!
# What the caller asks for

The cutpoints of a phase turn it on for the members that they cover (`Blueprint.isEnabled_of_planContext`), and a member has the
combinator that the caller registers for it, or else the default of a hook (`Blueprint.get?_specs_of_planContext`).
-/

namespace Amalgam

variable {σ : Type}

/-! ## Cutpoints -/

theorem Cutpoints.mem_names {done kept : List String} {items : List CutpointName}
    (h : Cutpoints.names done items = .ok kept) (name : String) : name ∈ kept ↔ name ∈ done ∨ .name name ∈ items := by
  induction items generalizing done with
  | nil =>
    cases h
    simp
  | cons item items ih =>
    cases item with
    | other shown => cases h
    | name n =>
      rw [ih h, List.mem_cons, CutpointName.name.injEq]
      split
      · rename_i hn
        rw [List.contains_iff_mem] at hn
        grind
      · simp only [List.mem_append, List.mem_singleton, or_assoc]

/-- Whether the caller names a member that there is, or all of them. -/
def Cutpoints.covers : Cutpoints → String → Bool
  | everything, _ => true
  | one name, member => name == member
  | some names, member => names.contains (.name member)
  | _, _ => false

/-- The names that cutpoints stand for are those they cover, among the members that are no hooks and the name of all members. -/
theorem Cutpoints.mem_expand {cutpoints : Cutpoints} {plain kept : List String} (h : cutpoints.expand plain = .ok kept)
    {name : String} (hname : name = Advice.all ∨ name ∈ plain) : name ∈ kept ↔ cutpoints.covers name = true := by
  cases cutpoints with
  | nothing =>
    cases h
    simp [covers]
  | everything =>
    cases h
    simpa [covers, or_comm] using hname
  | one text =>
    cases h
    rw [covers, List.mem_singleton, beq_iff_eq, eq_comm]
  | some items =>
    rw [mem_names h]
    simp [covers]
  | other shown => cases h

/-- Of the names, those of members that are no hooks can carry advice, and so can the name of all members. -/
theorem Cutpoints.mem_usable {strict : Bool} {phase : Phase} {members names kept : List String} {t t' : Planning σ}
    (h : (usable strict phase members names).runFrom t = (.ok kept, t')) (name : String) :
    name ∈ kept ↔ name ∈ names ∧ (name = Advice.all ∨ Advice.isHook name = false ∧ name ∈ members) := by
  induction names generalizing kept t with
  | nil =>
    cases h
    simp
  | cons first rest ih =>
    unfold usable at h
    have hkeep : ∀ {kept : List String} {t : Planning σ},
        (first = Advice.all ∨ Advice.isHook first = false ∧ first ∈ members) →
        (do return first :: (← usable strict phase members rest)).runFrom t = (.ok kept, t') →
        (name ∈ kept ↔ name ∈ first :: rest ∧ (name = Advice.all ∨ Advice.isHook name = false ∧ name ∈ members)) := by
      intro kept t hfirst h
      obtain ⟨more, u, hmore, h⟩ := Act.bind_eq_ok.1 h
      cases h
      rw [List.mem_cons, List.mem_cons, ih hmore, or_and_right]
      refine or_congr_left (iff_self_and.2 ?_)
      rintro rfl
      exact hfirst
    have hdrop : ∀ {kept : List String} {t : Planning σ} {cause : Unknown},
        ¬(first = Advice.all ∨ Advice.isHook first = false ∧ first ∈ members) →
        (Planner.unknown strict cause >>= fun _ => usable strict phase members rest).runFrom t = (.ok kept, t') →
        (name ∈ kept ↔ name ∈ first :: rest ∧ (name = Advice.all ∨ Advice.isHook name = false ∧ name ∈ members)) := by
      intro kept t cause hfirst h
      obtain ⟨_, u, -, h⟩ := Act.bind_eq_ok.1 h
      rw [ih h, List.mem_cons]
      refine and_congr_left fun hname => (or_iff_right ?_).symm
      rintro rfl
      exact hfirst hname
    split at h
    · rename_i hall
      exact hkeep (Or.inl (eq_of_beq hall)) h
    rename_i hall
    rw [beq_iff_eq] at hall
    split at h
    · rename_i hhook
      exact hdrop (by simp [hall, hhook]) h
    rename_i hhook
    split at h
    · rename_i hmem
      exact hdrop (by simpa [hall] using fun _ => by simpa using hmem) h
    · rename_i hmem
      exact hkeep (Or.inr ⟨by simpa using hhook, by simpa using hmem⟩) h

/-- What the caller gives for the cutpoints of a phase. -/
def Request.cutpoints (q : Request) : Phase → Cutpoints
  | .before => q.before
  | .after => q.after

/-- The names that receive advice of a phase. -/
def Blueprint.Context.names (c : Blueprint.Context) : Phase → List String
  | .before => c.before
  | .after => c.after

/-- Whether a member that there is receives advice of a phase: the name of all members stands for none, and hooks never do. -/
def Request.advises (q : Request) (phase : Phase) (member : String) : Bool :=
  (q.cutpoints phase).covers member && member != Advice.all && !Advice.isHook member

/-! ## Combinators -/

/-- The specs that the entries of the caller stand for, by members. -/
def Request.Reads (q : Request) (p : Provider σ) (read : Entries CombinatorSpec) : Prop :=
  ∀ member, Option.Rel (fun entry spec => entry.Denotes spec ∧ entry.Orders p spec.order)
    ((Entries.ofList q.combinators).get? member) (read.get? member)

/-- The hooks of the members that the cutpoints of a phase cover, and that of all members where they name all. -/
def Request.hooks (q : Request) (phase : Phase) (members : List String) : List String :=
  ((Advice.all :: members.filter fun name => !Advice.isHook name).filter (q.cutpoints phase).covers).map (Advice.hook phase)

/-- A name is the hook of a member that the cutpoints of a phase cover. -/
theorem Request.mem_hooks {q : Request} {phase : Phase} {members : List String} {hook : String} :
    hook ∈ q.hooks phase members ↔ ∃ member,
    ((q.cutpoints phase).covers member = true ∧
      (member = Advice.all ∨ Advice.isHook member = false ∧ member ∈ members)) ∧ Advice.hook phase member = hook := by
  simp only [Request.hooks, List.mem_map, List.mem_filter, List.mem_cons, Bool.not_eq_true']
  refine exists_congr fun member => ?_
  rw [and_comm (a := member ∈ members), and_comm (b := (q.cutpoints phase).covers member = true)]

/-- Whether a hook has a combinator of its own accord. -/
def Request.joinsByDefault (q : Request) (members : List String) (hook : String) : Bool :=
  (q.hooks .before members).contains hook || (q.hooks .after members).contains hook

/-- The combinator of a member: what the caller registers for it, or else the default of a hook. -/
def Request.combinator? (q : Request) (d : Blueprint.Defaults) (read : Entries CombinatorSpec) (members : List String)
    (member : String) : Option CombinatorSpec :=
  (read.get? member).or (if q.joinsByDefault members member then some (d.specOf member) else none)

namespace Blueprint

variable {p : Provider σ} {d : Defaults} {strict : Bool} {q : Request} {x : Mix} {members : MemberMap} {c : Context}
  {t t' : Planning σ}

theorem mem_names_of_planContext (h : (planContext p d strict q x members).runFrom t = (.ok c, t')) (phase : Phase)
    (name : String) : name ∈ c.names phase ↔
      (q.cutpoints phase).covers name = true ∧ (name = Advice.all ∨ Advice.isHook name = false ∧ name ∈ members.keys) := by
  obtain ⟨parsed, u, -, h⟩ := Act.bind_eq_ok.1 h
  obtain ⟨specs, u', -, h⟩ := Act.bind_eq_ok.1 h
  obtain ⟨beforeNames, v, hbeforeNames, h⟩ := Act.bind_eq_ok.1 h
  obtain ⟨before, v', hbefore, h⟩ := Act.bind_eq_ok.1 h
  obtain ⟨afterNames, y, hafterNames, h⟩ := Act.bind_eq_ok.1 h
  obtain ⟨after, y', hafter, h⟩ := Act.bind_eq_ok.1 h
  cases h
  rw [Act.runFrom_ofExcept, Prod.mk.injEq] at hbeforeNames hafterNames
  have hplain : Advice.isHook name = false ∧ name ∈ members.keys → name ∈ members.plain := fun hname =>
    List.mem_filter.2 ⟨hname.2, by rw [hname.1]; rfl⟩
  cases phase with
  | before =>
    refine (Cutpoints.mem_usable hbefore name).trans (and_congr_left fun hname => ?_)
    exact Cutpoints.mem_expand (Outcome.mapError_eq_ok.1 hbeforeNames.1) (hname.imp_right hplain)
  | after =>
    refine (Cutpoints.mem_usable hafter name).trans (and_congr_left fun hname => ?_)
    exact Cutpoints.mem_expand (Outcome.mapError_eq_ok.1 hafterNames.1) (hname.imp_right hplain)

/-- A member receives advice where the caller says so. -/
theorem isEnabled_of_planContext (h : (planContext p d strict q x members).runFrom t = (.ok c, t')) (phase : Phase)
    {name : String} (hname : name ∈ members.keys) : c.isEnabled phase name = q.advises phase name := by
  have hnames := mem_names_of_planContext h phase name
  refine Bool.eq_iff_iff.2 ?_
  have henabled : c.isEnabled phase name = true ↔ name ≠ Advice.all ∧ name ∈ c.names phase := by
    unfold Context.isEnabled
    cases phase <;> simp [Context.names]
  rw [henabled, hnames, Request.advises, Bool.and_eq_true, Bool.and_eq_true, bne_iff_ne, Bool.not_eq_true']
  constructor
  · rintro ⟨hother, hcovers, hplain⟩
    exact ⟨⟨hcovers, hother⟩, (hplain.resolve_left hother).1⟩
  · rintro ⟨⟨hcovers, hother⟩, hplain⟩
    exact ⟨hother, hcovers, Or.inr ⟨hplain, hname⟩⟩

theorem reads_of_parseAll {specs : Entries CombinatorSpec} {s s' : σ}
    (h : (CombinatorSpec.parseAll p x.participants q.combinators).runFrom s = (.ok specs, s')) : q.Reads p specs := by
  have hempty : ∀ member, Option.Rel (fun entry spec => CombinatorEntry.Denotes entry spec ∧ entry.Orders p spec.order)
      (Entries.get? [] member) (Entries.get? [] member) := fun _ => .none
  refine CombinatorSpec.parseFrom_rel (fun claimed hs => ?_) hempty h
  obtain ⟨hdenotes, horder⟩ := CombinatorSpec.denotes_of_claim claimed (CombinatorSpec.parse_eq_ok hs)
  exact ⟨hdenotes, horder ▸ CombinatorSpec.orders_of_parse hs⟩

/-- A member has the combinator that is registered for it, or else the default of a hook. -/
theorem get?_specs_of_planContext (h : (planContext p d strict q x members).runFrom t = (.ok c, t')) : ∃ read s,
    (CombinatorSpec.parseAll p x.participants q.combinators).runFrom t.provider = (.ok read, s) ∧
      ∀ name ∈ members.keys, c.specs.get? name = q.combinator? d read members.keys name := by
  have hnames := mem_names_of_planContext h
  obtain ⟨read, u, hread, h⟩ := Act.bind_eq_ok.1 h
  obtain ⟨specs, u', hknown, h⟩ := Act.bind_eq_ok.1 h
  obtain ⟨rfl, -⟩ := knownSpecs_eq_ok hknown
  obtain ⟨beforeNames, v, -, h⟩ := Act.bind_eq_ok.1 h
  obtain ⟨before, v', -, h⟩ := Act.bind_eq_ok.1 h
  obtain ⟨afterNames, y, -, h⟩ := Act.bind_eq_ok.1 h
  obtain ⟨after, y', -, h⟩ := Act.bind_eq_ok.1 h
  cases h
  refine ⟨read, u.provider, Planner.ask_eq_ok hread, fun name hname => ?_⟩
  have hdefault : q.joinsByDefault members.keys name = true ↔
      name ∈ before.map (Advice.hook .before) ∨ name ∈ after.map (Advice.hook .after) := by
    unfold Request.joinsByDefault
    rw [Bool.or_eq_true, List.contains_iff_mem, List.contains_iff_mem, Request.mem_hooks, Request.mem_hooks, List.mem_map,
      List.mem_map]
    simp only [← hnames]
    rfl
  dsimp only
  rw [get?_withDefaults, get?_withDefaults, Entries.get?_filter _ (by simpa using hname), Option.or_assoc,
    Request.combinator?]
  congr 1
  by_cases hbefore : name ∈ before.map (Advice.hook .before)
  · rw [if_pos ⟨hname, hbefore⟩, if_pos (hdefault.2 (Or.inl hbefore))]
    rfl
  · rw [if_neg fun hin => hbefore hin.2, Option.none_or]
    refine if_congr ?_ rfl rfl
    rw [hdefault, or_iff_right hbefore, and_iff_right hname]

end Blueprint

end Amalgam
