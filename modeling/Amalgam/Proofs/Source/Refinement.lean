import Amalgam.Proofs.Source.Alarm

/-!
# Generated bodies and their contract

The body of a generated method does what its contract says, in every scene and for all arguments, exactly if all names
that it relies on mean in it what they should (`runsByContract_iff`). Where one of them is lost, a scene with an alarm
tells the two apart (`namesHold_of_agrees`).
-/

namespace Amalgam

open Act (Agree Lands)
open Source (run runBody bodyOf beforeStmts afterStmts receiverOf Stmt)

/-! ## Locals that hold nothing -/

/-- What a parameter is bound to in a call that gives it nothing. -/
def Param.blank (p : Param) : Value :=
  match p.kind with
  | .varPositional => .tuple []
  | .varKeyword => .dict []
  | _ => .none

theorem Param.isBlank_blank (p : Param) : Trap.isBlank p.blank = true := by
  unfold blank
  split <;> rfl

/-- Such values can be handed on, with keywords for some of the parameters. -/
theorem Param.exists_handed_blank (ps : List Param) :
    ∃ vs ks, Handed [] (ps.map shape) (ps.map fun p => (p.name, p.blank)) vs ks ∧ ks.keys.Sublist (ps.map name) := by
  induction ps with
  | nil => exact ⟨[], [], .nil, List.Sublist.refl _⟩
  | cons p ps ih =>
    obtain ⟨vs, ks, handed, hsub⟩ := ih
    have hblank : p.blank = match p.kind with
      | .varPositional => .tuple []
      | .varKeyword => .dict []
      | _ => .none := rfl
    rw [List.map_cons, List.map_cons, List.map_cons]
    cases hkind : p.kind <;> rw [hkind] at hblank <;> rw [hblank]
    case positionalOnly =>
      have hpositional : p.shape.isPositional = true := by rw [shape, hkind]; rfl
      exact ⟨.none :: vs, ks, .positional hpositional handed, hsub.cons _⟩
    case positionalOrKeyword =>
      have hpositional : p.shape.isPositional = true := by rw [shape, hkind]; rfl
      exact ⟨.none :: vs, ks, .positional hpositional handed, hsub.cons _⟩
    case varPositional =>
      have hsurplus : p.shape.kind = .varPositional := hkind
      exact ⟨[] ++ vs, ks, .surplus hsurplus handed, hsub.cons _⟩
    case keywordOnly =>
      have hkeyword : p.shape.kind = .keywordOnly := hkind
      exact ⟨vs, (p.name, .none) :: ks, .keyword hkeyword handed, hsub.cons_cons _⟩
    case varKeyword =>
      have htable : p.shape.kind = .varKeyword := hkind
      exact ⟨vs, [] ++ ks, .table htable handed, hsub.cons _⟩

/-- The locals of a body whose call gave it nothing. -/
def MethodDef.blankLocals (b : Blueprint) (m : MethodDef) : Entries Value :=
  (receiverOf m.signature.kind).toList.map (·, .none) ++
    m.signature.params.map fun p => (Text.privateName b.name p.name, p.blank)

section Blank

variable {b : Blueprint} {m : MethodDef}

theorem keys_blankLocals : (m.blankLocals b).keys = m.localNames b := by
  unfold Entries.keys MethodDef.blankLocals MethodDef.localNames
  rw [List.map_append, List.map_map, List.map_map]
  congr 1
  exact List.map_id _

theorem isBlank_of_blankLocals {name : String} {v : Value} (h : (m.blankLocals b).get? name = some v) :
    Trap.isBlank v = true := by
  rcases List.mem_append.1 (Entries.mem_of_get? h) with hmem | hmem
  · obtain ⟨r, -, heq⟩ := List.mem_map.1 hmem
    cases heq
    rfl
  · obtain ⟨p, -, heq⟩ := List.mem_map.1 hmem
    cases heq
    exact p.isBlank_blank

variable (apart : ∀ p ∈ m.signature.params, p.name ∉ m.identifiers b)
  (distinct : (m.signature.params.map fun p => Text.privateName b.name p.name).Nodup)

include apart distinct

theorem nodup_localNames : (m.localNames b).Nodup := by
  unfold MethodDef.localNames
  refine List.nodup_append.2 ⟨?_, distinct, ?_⟩
  · cases receiverOf m.signature.kind with
    | none => exact List.nodup_nil
    | some r => exact List.nodup_singleton r
  · rintro r hr _ hmem rfl
    obtain ⟨p, hp, heq⟩ := List.mem_map.1 hmem
    refine Source.param_ne apart ?_ ?_ hp heq
    · exact List.mem_append_left _ hr
    · cases hkind : m.signature.kind <;> rw [hkind] at hr <;> simp [receiverOf] at hr <;> subst hr <;> decide +kernel

/-- There is an occasion for them. -/
theorem exists_starts_blank : ∃ o : Occasion, o.Starts b m (m.blankLocals b) ∧ (∀ v ∈ o.receiver, v = .none) ∧
    (o.receiver = none ↔ receiverOf m.signature.kind = none) := by
  obtain ⟨vs, ks, handed, hsub⟩ := Param.exists_handed_blank m.signature.params
  have hkeys : (m.blankLocals b).keys.Nodup := keys_blankLocals ▸ nodup_localNames apart distinct
  have hnames : (m.signature.params.map Param.name).Nodup := by
    have : (m.signature.params.map fun p => Text.privateName b.name p.name) =
        (m.signature.params.map Param.name).map (Text.privateName b.name) := by
      rw [List.map_map]
      rfl
    rw [this] at distinct
    exact List.Nodup.of_map _ distinct
  refine ⟨⟨(receiverOf m.signature.kind).map fun _ => .none, vs, ks⟩, ⟨?_, ?_, ?_, ?_⟩, ?_, ?_⟩
  · show Option.map _ _ = Option.map some (Option.map _ _)
    rw [Option.map_map]
    cases hr : receiverOf m.signature.kind with
    | none => rfl
    | some r =>
      refine congrArg some (Entries.get?_of_mem hkeys ?_)
      unfold MethodDef.blankLocals
      rw [hr]
      exact List.mem_cons_self
  · rw [keys_blankLocals]
    exact List.Subset.refl _
  · refine ⟨[], _, handed, fun e he => Entries.get?_of_mem hkeys ?_⟩
    obtain ⟨p, hp, rfl⟩ := List.mem_map.1 he
    exact List.mem_append_right _ (List.mem_map.2 ⟨p, hp, rfl⟩)
  · exact hnames.sublist hsub
  · intro v hv
    obtain ⟨_, -, rfl⟩ := Option.map_eq_some_iff.1 hv
    rfl
  · exact Option.map_eq_none_iff

end Blank

/-! ## Tests in a body -/

section Tests

variable {b : Blueprint} {m : MethodDef} {owner : String} {call : Advice.Call} {stmts : List Stmt}

theorem beforeStmts_ends (h : beforeStmts b owner m call = .ok stmts) : ∀ s ∈ stmts, Trap.ends s = false := by
  unfold beforeStmts at h
  split at h
  · cases h
    simp [Trap.ends]
  · obtain ⟨cls, -, h⟩ := Outcome.bind_eq_ok.1 h
    cases h
    simp [Trap.ends]

theorem afterStmts_ends (h : afterStmts b owner m call = .ok stmts) : ∀ s ∈ stmts, Trap.ends s = false := by
  unfold afterStmts at h
  split at h
  · cases h
    simp [Trap.ends]
  · obtain ⟨cls, -, h⟩ := Outcome.bind_eq_ok.1 h
    cases h
    simp [Trap.ends]

theorem beforeStmts_test (hscope : call.scope = .member) (h : beforeStmts b owner m call = .ok stmts) :
    ∃ cls, b.aliases.get? Verdict.shortCircuit.ref.path = some cls ∧ .leaveOn cls ∈ stmts := by
  rw [beforeStmts, hscope] at h
  obtain ⟨cls, hcls, h⟩ := Outcome.bind_eq_ok.1 h
  cases h
  exact ⟨cls, Source.aliasOf_eq_ok.1 hcls, by simp⟩

theorem afterStmts_test (hscope : call.scope = .member) (h : afterStmts b owner m call = .ok stmts) :
    ∃ cls, b.aliases.get? Verdict.replace.ref.path = some cls ∧ .replaceOn cls ∈ stmts := by
  rw [afterStmts, hscope] at h
  obtain ⟨cls, hcls, h⟩ := Outcome.bind_eq_ok.1 h
  cases h
  exact ⟨cls, Source.aliasOf_eq_ok.1 hcls, by simp⟩

/-- If a decision is tested at all, a body tests it before it ends. -/
theorem exists_test {k : Verdict} (hk : k.ref.path ∈ m.verdictPaths) {receiver : Option String} {body : List Stmt}
    (h : bodyOf b m receiver = .ok body) :
    ∃ before test rest cls, body = before ++ test :: rest ∧ (∀ s ∈ before, Trap.ends s = false) ∧
      (test = .leaveOn cls ∨ test = .replaceOn cls) ∧ b.aliases.get? k.ref.path = some cls := by
  have hparts : ∀ {f : Advice.Call → Source.Compiled (List Stmt)} {calls : List Advice.Call} {parts : List (List Stmt)},
      (∀ {call stmts}, f call = .ok stmts → ∀ s ∈ stmts, Trap.ends s = false) → calls.mapM f = .ok parts →
      ∀ s ∈ parts.flatten, Trap.ends s = false := by
    intro f calls parts hends hcalls s hs
    obtain ⟨stmts, hstmts, hs⟩ := List.mem_flatten.1 hs
    obtain ⟨call, -, hcall⟩ := Outcome.exists_mem_of_forall₂ (Outcome.mapM_eq_ok.1 hcalls).flip hstmts
    exact hends hcall s hs
  obtain ⟨work, -, ⟨hplain, -⟩ | ⟨-, before, after, hb, ha, rfl⟩⟩ := Source.bodyOf_eq_ok h
  · rw [MethodDef.isAdvised_of_decides (MethodDef.decides_of_mem_verdictPaths hk)] at hplain
    cases hplain
  have hbefore := hparts beforeStmts_ends hb
  have hafter := hparts afterStmts_ends ha
  unfold MethodDef.verdictPaths at hk
  rcases List.mem_append.1 hk with hk | hk <;> split at hk
  case inl.isTrue hany =>
    obtain ⟨call, hcall, hscope⟩ := List.any_eq_true.1 hany
    obtain ⟨stmts, hmem, hstmts⟩ := Outcome.exists_mem_of_forall₂ (Outcome.mapM_eq_ok.1 hb) hcall
    obtain ⟨cls, hcls, htest⟩ := beforeStmts_test (eq_of_beq hscope) hstmts
    obtain ⟨front, rest, heq⟩ := List.append_of_mem (List.mem_flatten.2 ⟨stmts, hmem, htest⟩)
    refine ⟨front, .leaveOn cls, rest ++ (.keep work :: (after.flatten ++ [.finish])), cls, ?_, ?_, Or.inl rfl, ?_⟩
    · rw [heq]
      simp
    · exact fun s hs => hbefore s (heq ▸ List.mem_append_left _ hs)
    · rw [List.mem_singleton.1 hk, hcls]
  case inr.isTrue hany =>
    obtain ⟨call, hcall, hscope⟩ := List.any_eq_true.1 hany
    obtain ⟨stmts, hmem, hstmts⟩ := Outcome.exists_mem_of_forall₂ (Outcome.mapM_eq_ok.1 ha) hcall
    obtain ⟨cls, hcls, htest⟩ := afterStmts_test (eq_of_beq hscope) hstmts
    obtain ⟨front, rest, heq⟩ := List.append_of_mem (List.mem_flatten.2 ⟨stmts, hmem, htest⟩)
    refine ⟨before.flatten ++ .keep work :: front, .replaceOn cls, rest ++ [.finish], cls, ?_, ?_, Or.inr rfl, ?_⟩
    · rw [heq]
      simp
    · intro s hs
      rcases List.mem_append.1 hs with hs | hs
      · exact hbefore s hs
      · rcases List.mem_cons.1 hs with rfl | hs
        · rfl
        · exact hafter s (heq ▸ List.mem_append_left _ hs)
    · rw [List.mem_singleton.1 hk, hcls]
  all_goals cases hk

end Tests

/-! ## Where a name is lost -/

section Lost

variable {b : Blueprint} {m : MethodDef} {body : List Stmt} (built : m.IsBuilt b)
  (apart : ∀ p ∈ m.signature.params, p.name ∉ m.identifiers b)
  (distinct : (m.signature.params.map fun p => Text.privateName b.name p.name).Nodup)
  (hbody : bodyOf b m (receiverOf m.signature.kind) = .ok body)
  (agrees : ∀ {x : Scene Unit} {o : Occasion} {locals : Entries Value}, x.Lawful b → o.Starts b m locals →
    Agree x.Inv (runBody x.surroundings locals (body.map (Stmt.within b.name))) (x.contract m o))

/-- What leads to no harm at the start of a body that holds nothing. -/
theorem safe_blankLocals {trap : Trap} (h : ∀ name v, Text.privateName b.name name ∉ m.localNames b →
      Text.privateName b.name name ∉ m.slots →
      (Trap.lookUp b (Text.privateName b.name name)).runFrom () = (.ok v, ()) → trap.Harmless b.name v) :
    trap.Safe b m.slots (m.blankLocals b) := by
  refine ⟨isBlank_of_blankLocals, fun name hnone => ?_⟩
  rw [Entries.get?_eq_none_iff, keys_blankLocals] at hnone
  refine Trap.outer_lands fun hslot v hv => h name v hnone hslot hv

include built apart distinct hbody agrees

/-- A body that agrees with its contract raises the alarm where that does. -/
theorem not_rings {trap : Trap} (safe : trap.Safe b m.slots (m.blankLocals b)) :
    ¬∀ o : Occasion, (∀ v ∈ o.receiver, v = .none) → (o.receiver = none ↔ receiverOf m.signature.kind = none) →
      ((trap.scene b).contract m o).runFrom () = (.error alarm, ()) := by
  intro rings
  obtain ⟨o, starts, hreceiver, hnone⟩ := exists_starts_blank apart distinct
  have hagree := agrees (trap.lawful built) starts () trivial
  have hlands := Trap.run_lands body safe ()
  unfold runBody at hagree
  rw [Surroundings.hide_congr _ (Source.mem_assigned_body built hbody), rings o hreceiver hnone] at hagree
  rw [hagree] at hlands
  exact hlands rfl

/-- Nor does it fail where that does not. -/
theorem not_fails {k : Verdict} (hk : k.ref.path ∈ m.verdictPaths)
    (lost : ∀ cls ∈ b.aliases.get? k.ref.path, Trap.Lost b (m.blankLocals b) cls) : False := by
  obtain ⟨o, starts, hreceiver, -⟩ := exists_starts_blank apart distinct
  obtain ⟨before, test, rest, cls, rfl, hbefore, htest, hcls⟩ := exists_test hk hbody
  have hdecides := MethodDef.decides_of_mem_verdictPaths hk
  -- Nothing raises the alarm, so the contract comes to an end.
  have hagree := agrees (Trap.lawful (fun _ _ => false) built) starts () trivial
  rw [Trap.contract_outcome hreceiver (fun _ _ => rfl) (Trap.outcome_calm fun _ _ _ => rfl)] at hagree
  have safe : Trap.Safe (fun _ _ => false) b m.slots (m.blankLocals b) := by
    refine safe_blankLocals fun name v _ _ hv => ?_
    rcases Trap.lookUp_eq hv with ⟨path, rfl, -⟩ | ⟨rfl, -⟩ | ⟨rfl, -⟩
    · exact fun _ => rfl
    · exact fun _ => rfl
    · trivial
  have hslot : Alias.decisionSlot ∈ m.slots := by
    rw [MethodDef.slots, if_pos (MethodDef.isAdvised_of_decides hdecides), if_pos hdecides]
    simp
  have hshown : "isinstance" ∉ m.slots := fun h => absurd (Source.slots_subset m h) (by decide)
  have free : (m.blankLocals b).get? "isinstance" = none := by
    rw [Entries.get?_eq_none_iff, keys_blankLocals]
    exact Source.test_not_mem_localNames apart hdecides
  have hfails : Lands (fun _ => False) (fun _ => True) (run ((Trap.scene (fun _ _ => false) b).surroundings.hide m.slots)
      (m.blankLocals b) ((before ++ test :: rest).map (Stmt.within b.name))) :=
    Trap.run_fails built hslot hshown hbefore htest safe free (lost cls hcls)
  have hfails := hfails ()
  unfold runBody at hagree
  rw [Surroundings.hide_congr _ (Source.mem_assigned_body built hbody)] at hagree
  rw [hagree] at hfails
  exact hfails

/-- No name of a symbol that it calls is lost. -/
theorem called_of_agrees : ∀ path ∈ m.calledPaths, ∀ name ∈ b.aliases.get? path,
    Text.IsStable b.name name ∧ name ∉ m.localNames b := by
  intro path hpath name hname
  by_contra hlost
  let trap : Trap := fun object _ => object == some path
  refine not_rings built apart distinct hbody agrees (@safe_blankLocals _ _ trap ?_) ?_
  · intro other v hlocal _ hv
    rcases Trap.lookUp_eq hv with ⟨found, rfl, hfound, hcomposed⟩ | ⟨rfl, -⟩ | ⟨rfl, -⟩
    · -- The symbol itself is out of reach: no other name turns into its name.
      have hne : found ≠ path := by
        rintro rfl
        rw [hname, Option.some.injEq] at hfound
        rw [← hfound] at hlocal hcomposed
        refine hlost ⟨⟨?_, hcomposed⟩, hlocal⟩
        by_contra hchanged
        exact Text.privateName_ne_of_private hchanged other hfound.symm
      exact fun _ => by simpa [trap] using hne
    · exact fun _ => rfl
    · trivial
  · intro o hreceiver _
    refine Trap.contract_outcome hreceiver (fun _ _ => rfl) (Trap.outcome_rings ?_)
    by_cases hcontributor : ∃ t ∈ m.core.targets, t.contributor = path
    · obtain ⟨t, ht, heq⟩ := hcontributor
      exact Or.inl ⟨t, ht, by simp [trap, heq]⟩
    · refine Or.inr ⟨fun t ht => ?_, ?_⟩
      · simpa [trap] using fun heq => hcontributor ⟨t, ht, heq⟩
      · unfold MethodDef.calledPaths at hpath
        rcases List.mem_append.1 hpath with hpath | hpath
        · obtain ⟨t, ht, heq⟩ := List.mem_map.1 hpath
          exact absurd ⟨t, ht, heq⟩ hcontributor
        · cases hcore : m.core with
          | call => rw [hcore] at hpath; cases hpath
          | combine f targets =>
            rw [hcore] at hpath
            exact ⟨f, targets, rfl, by simp [trap, List.mem_singleton.1 hpath]⟩

/-- Nor is one of a class that it tests for. -/
theorem verdict_of_agrees : ∀ path ∈ m.verdictPaths, ∀ name ∈ b.aliases.get? path, name ∉ m.localNames b := by
  intro path hpath name hname hlocal
  obtain ⟨k, rfl⟩ := MethodDef.exists_of_mem_verdictPaths hpath
  refine not_fails built apart distinct hbody agrees hpath fun cls hcls => Or.inr ?_
  have heq : name = cls := Option.some.inj (hname.symm.trans hcls)
  rw [(built.verdict hcls).1, ← heq, ← Option.ne_none_iff_exists', ne_eq, Entries.get?_eq_none_iff, keys_blankLocals]
  exact fun h => h hlocal

/-- Nor the name of the member that it calls. -/
theorem member_of_agrees : Text.privateName b.name m.name = m.name := by
  by_contra hchanged
  let trap : Trap := fun object use => object.isSome && use == some m.name
  refine not_rings built apart distinct hbody agrees (@safe_blankLocals _ _ trap ?_) ?_
  · intro other v _ _ hv
    have hne : ∀ use : Option String, (use.map (Text.privateName b.name) == some m.name) = false := by
      intro use
      cases use with
      | none => rfl
      | some name => simpa using Text.privateName_ne_of_private hchanged name
    rcases Trap.lookUp_eq hv with ⟨path, rfl, -⟩ | ⟨rfl, -⟩ | ⟨rfl, -⟩
    · exact fun use => by simp [trap, hne use]
    · exact fun use => rfl
    · trivial
  · intro o hreceiver _
    refine Trap.contract_outcome hreceiver (fun _ _ => rfl) (Trap.outcome_rings (Or.inl ?_))
    obtain ⟨t, ht⟩ := List.exists_mem_of_ne_nil _ built.nonempty
    exact ⟨t, ht, by simp [trap, built.targets t ht]⟩

/-- Nor that of the composite where hooks are called through it. -/
theorem owner_of_agrees (hthrough : m.callsThroughName = true) : Text.IsStable b.name b.name ∧ b.name ∉ m.slots := by
  by_contra hlost
  let trap : Trap := fun object _ => object.isNone
  refine not_rings built apart distinct hbody agrees (@safe_blankLocals _ _ trap ?_) ?_
  · intro other v _ hslot hv
    rcases Trap.lookUp_eq hv with ⟨path, rfl, -⟩ | ⟨rfl, hname, hcomposed⟩ | ⟨rfl, -⟩
    · exact fun _ => rfl
    · rw [hname] at hslot
      refine absurd ⟨⟨?_, hcomposed⟩, hslot⟩ hlost
      by_contra hchanged
      exact Text.privateName_ne_of_private hchanged other hname
    · trivial
  · intro o _ hnone
    rw [MethodDef.callsThroughName, Bool.and_eq_true, Option.isNone_iff_eq_none] at hthrough
    refine Trap.contract_rings (hnone.2 hthrough.2) (fun _ => rfl) (Trap.outcome_calm fun _ _ _ => rfl) ?_
    exact Source.exists_hook built hthrough.1

/-- Nor is the test of decisions. -/
theorem test_of_agrees (hdecides : m.decides = true) : b.name ≠ "isinstance" := by
  intro hname
  obtain ⟨k, hk⟩ := MethodDef.exists_verdict hdecides
  exact not_fails built apart distinct hbody agrees hk fun _ _ => Or.inl hname

/-- A method of which all bodies agree with the contract has lost no name. -/
theorem namesHold_of_agrees : m.NamesHold b :=
  { called := called_of_agrees built apart distinct hbody agrees
    verdict := verdict_of_agrees built apart distinct hbody agrees
    member := member_of_agrees built apart distinct hbody agrees
    owner := owner_of_agrees built apart distinct hbody agrees
    test := test_of_agrees built apart distinct hbody agrees }

end Lost

/-- Every call that fits the parameters of a method is an occasion, unless their names are private to its class. -/
theorem Occasion.exists_starts {b : Blueprint} {m : MethodDef} {c : Source.Method} (hc : Source.methodOf b m = .ok c)
    (legal : ParamShape.IsLegal (m.signature.params.map Param.shape))
    (apart : ∀ r ∈ receiverOf m.signature.kind, r ∉ m.signature.params.map Param.name)
    (stable : ∀ p ∈ m.signature.params, Text.privateName b.name p.name = p.name) {params : List Parameter}
    (hparams : params.map Parameter.shape = (c.within b.name).formals.map Source.Formal.shape) {positional : List Value}
    {keywords locals : Entries Value} (hkeywords : keywords.keys.Nodup)
    (hbind : Parameter.bind? params positional keywords = some locals) : ∃ o : Occasion, o.Starts b m locals := by
  obtain ⟨-, -, -, hformals, -⟩ := Source.methodOf_eq_ok hc
  obtain ⟨reference, fs, -, -, hshapes, heq⟩ := (Source.formalsOf_eq_ok legal).1 hformals
  have hnames := Source.names_withReceiver hshapes (receiverOf m.signature.kind)
  have hwithin : (c.within b.name).formals.map Source.Formal.shape =
      (Source.withReceiver (receiverOf m.signature.kind) fs).map Source.Formal.shape := by
    rw [← heq]
    refine Source.shapes_within fun name hname => ?_
    rw [heq, hnames] at hname
    rcases List.mem_append.1 hname with hname | hname
    · exact Source.privateName_receiver (Option.mem_toList.1 hname) _
    · obtain ⟨p, hp, rfl⟩ := List.mem_map.1 hname
      exact stable p hp
  have hlegal : ParamShape.IsLegal ((Source.withReceiver (receiverOf m.signature.kind) fs).map Source.Formal.shape) :=
    Source.isLegal_withReceiver (hshapes ▸ legal) (Source.names_of_shapes hshapes ▸ apart)
  obtain ⟨hkeys, extra, vs, ks, handed, hextra, hfree, -⟩ :=
    Source.handed_of_bind hlegal (hparams.trans hwithin) hkeywords hbind
  have hdistinct : locals.keys.Nodup := by
    have := hlegal.distinct
    rw [List.map_map] at this
    rw [hkeys]
    exact this
  rw [hshapes] at handed hfree
  refine ⟨⟨(receiverOf m.signature.kind).bind locals.get?, vs, ks⟩, ?_, ?_, ?_, handed.nodup_keywords legal hextra hfree⟩
  · cases hr : receiverOf m.signature.kind with
    | none => rfl
    | some r =>
      rw [hr] at hkeys
      have hr : locals.get? r ≠ none := by
        rw [ne_eq, Entries.get?_eq_none_iff, hkeys, not_not]
        exact List.mem_cons_self
      obtain ⟨v, hv⟩ := Option.ne_none_iff_exists'.1 hr
      show some (locals.get? r) = (locals.get? r).map some
      rw [hv]
      rfl
  · have hlocal : m.localNames b = locals.keys := by
      unfold MethodDef.localNames
      rw [hkeys, hnames, List.map_congr_left stable]
    rw [hlocal]
    exact List.Subset.refl _
  · refine ⟨extra, _, handed, fun e he => ?_⟩
    have hmem : e.1 ∈ m.signature.params.map Param.name := by
      have : e.1 ∈ (m.signature.params.map Param.shape).map ParamShape.name := handed.keys_env ▸ List.mem_map_of_mem he
      rwa [List.map_map] at this
    obtain ⟨p, hp, hname⟩ := List.mem_map.1 hmem
    rw [← hname, stable p hp, hname]
    exact Entries.get?_of_mem hdistinct (List.mem_of_mem_drop he)

/--
The code of a method runs by its contract, whatever hooks, contributors and combination functions do, exactly if all the
names hold that its body relies on.
-/
theorem Source.runsByContract_iff {σ : Type} {p : Provider σ} {d : Blueprint.Defaults} {strict : Bool} {q : Request}
    {b : Blueprint} {t t' : Planning σ} (hb : (Blueprint.build p d strict q).runFrom t = (.ok b, t')) {m : MethodDef}
    (hm : m ∈ b.methods) {c : Source.Method} (hc : Source.methodOf b m = .ok c)
    (apart : ∀ p ∈ m.signature.params, p.name ∉ m.identifiers b)
    (distinct : (m.signature.params.map fun p => Text.privateName b.name p.name).Nodup) :
    c.RunsByContract b m ↔ m.NamesHold b := by
  have built := MethodDef.isBuilt_of_build hb hm
  obtain ⟨-, -, -, -, hbody⟩ := Source.methodOf_eq_ok hc
  constructor
  · intro hruns
    exact namesHold_of_agrees built apart distinct hbody fun lawful starts => hruns _ _ _ _ lawful starts
  · intro holds W x o locals lawful starts
    exact Source.runBody_agrees built apart holds lawful starts hbody

/-- Two classes of one member each; the name of the second is private to any class that it stands in. -/
theorem Source.runsByContract_iff_private :
    ∃ b t', (Blueprint.build (Provider.ofManifests [⟨⟨"shop", "Cart"⟩, [{ name := "total" }, { name := "AFTER_total" }], [], []⟩,
          ⟨⟨"shop", "__Rebate"⟩, [{ name := "rebate" }], [], []⟩])
        ⟨.function 0, .function 1, .cls 2, .cls 3, .function 4⟩ true
        { name := "Sale", base := .text "shop:Cart", mixins := [.text "shop:__Rebate"], after := .one "total" }).runFrom
        ⟨(), []⟩ = (.ok b, t') ∧
      (∃ m ∈ b.methods, ∃ c, methodOf b m = .ok c ∧ m.name = "total" ∧ c.RunsByContract b m) ∧
      ∃ m ∈ b.methods, ∃ c, methodOf b m = .ok c ∧ m.name = "rebate" ∧ ¬c.RunsByContract b m := by
  generalize hrun : (Blueprint.build (Provider.ofManifests _) _ true _).runFrom (⟨(), []⟩ : Planning Unit) = r
  have hmethods : (r.1.toOption.map fun b => b.methods.map fun m =>
      (m.name, (methodOf b m).toOption.isSome, decide (m.NamesHold b),
        decide (∀ p ∈ m.signature.params, p.name ∉ m.identifiers b),
        decide (m.signature.params.map fun p => Text.privateName b.name p.name).Nodup)) =
      some [("total", true, true, true, true), ("rebate", true, false, true, true)] := by
    rw [← hrun]
    decide +kernel
  obtain ⟨outcome, t'⟩ := r
  cases outcome with
  | error e => cases hmethods
  | ok b =>
    obtain ⟨m, ms, hms, hm, hrest⟩ := List.map_eq_cons_iff.1 (Option.some.inj hmethods)
    obtain ⟨m', ms', rfl, hm', -⟩ := List.map_eq_cons_iff.1 hrest
    have hmem : m ∈ b.methods ∧ m' ∈ b.methods := by simp [hms]
    simp only [Prod.mk.injEq, decide_eq_true_eq, decide_eq_false_iff_not] at hm hm'
    obtain ⟨c, hc⟩ := Outcome.exists_eq_ok_of_isSome hm.2.1
    obtain ⟨c', hc'⟩ := Outcome.exists_eq_ok_of_isSome hm'.2.1
    refine ⟨b, t', rfl, ⟨m, hmem.1, c, hc, hm.1, ?_⟩, m', hmem.2, c', hc', hm'.1, ?_⟩
    · exact (runsByContract_iff hrun hmem.1 hc hm.2.2.2.1 hm.2.2.2.2).2 hm.2.2.1
    · exact fun hruns => hm'.2.2.1 ((runsByContract_iff hrun hmem.2 hc' hm'.2.2.2.1 hm'.2.2.2.2).1 hruns)

end Amalgam
