import Amalgam.Proofs.Blueprint.Hooks
import Amalgam.Proofs.Source.Receiving

/-!
# What watching hooks receive

The hooks of all members are documented to take the member and, behind it, all arguments. They see no call that passes
keywords under names that the hook has itself: `Source.observe_binds_iff` says of each call that the body of an advised
method makes whether its arguments fit.
-/

namespace Amalgam

/-- The names that a documented hook of all members has for what it learns beside the arguments. -/
def Advice.ownNames : Phase → List String
  | .before => ["member_id"]
  | .after => ["member_id", "result"]

/-- A documented hook of all members takes any arguments behind what else it learns. -/
def Advice.anyArguments : List ParamShape := [⟨"args", .varPositional, false⟩, ⟨"kwargs", .varKeyword, false⟩]

/-- The parameters of a hook of all members as they are documented. -/
def Advice.documented (phase : Phase) : List ParamShape :=
  (ownNames phase).map (⟨·, .positionalOrKeyword, false⟩) ++ anyArguments

/-- The parameters that a call must name. -/
def Signature.keywordNames (s : Signature) : List String :=
  (s.params.filter fun p => p.kind == .keywordOnly).map Param.name

theorem Signature.mem_keywordNames {s : Signature} {name : String} : name ∈ s.keywordNames ↔
    ∃ t ∈ s.params.map Param.shape, t.kind = .keywordOnly ∧ t.name = name := by
  simp [keywordNames, Param.shape, and_assoc]

/-! ## Binding to a documented hook -/

/-- A documented hook takes arguments for its own parameters and any others, unless a keyword has one of its own names. -/
theorem Parameter.bind?_documented {names : List String} {ps : List Parameter}
    (hps : ps.map shape = names.map (⟨·, .positionalOrKeyword, false⟩) ++ Advice.anyArguments) {front : List Value}
    (hfront : front.length = names.length) (rest : List Value) (keywords : Entries Value) :
    (bind? ps (front ++ rest) keywords).isSome = true ↔ ∀ name ∈ names, name ∉ keywords.keys := by
  have htakes : (ps.any fun p => p.kind == .varKeyword) = true := by
    have hshapes : ((ps.map shape).any fun s => s.kind == .varKeyword) = true := by
      rw [hps]
      simp [Advice.anyArguments]
    rwa [List.any_map] at hshapes
  have hfrom : ∀ extra : Entries Value, (bindFrom keywords extra ps (front ++ rest)).isSome = true ↔
      ∀ name ∈ names, name ∉ keywords.keys := by
    intro extra
    clear htakes
    induction names generalizing ps front with
    | nil =>
      obtain rfl := List.length_eq_zero_iff.1 hfront
      obtain ⟨p, ps, rfl, hp, hps⟩ := List.map_eq_cons_iff.1 hps
      obtain ⟨q, ps, rfl, hq, hps⟩ := List.map_eq_cons_iff.1 hps
      obtain rfl := List.map_eq_nil_iff.1 hps
      have hp : p.kind = .varPositional := congrArg ParamShape.kind hp
      have hq : q.kind = .varKeyword := congrArg ParamShape.kind hq
      simp [bindFrom, hp, hq]
    | cons name names ih =>
      obtain ⟨v, front, rfl⟩ := List.exists_cons_of_length_eq_add_one hfront
      obtain ⟨p, ps, rfl, hp, hps⟩ := List.map_eq_cons_iff.1 hps
      have hkind : p.kind = .positionalOrKeyword := congrArg ParamShape.kind hp
      have hname : p.name = name := congrArg ParamShape.name hp
      have hnamed : p.isNamed = true := by
        rw [isNamed, hkind]
        rfl
      have ih := ih hps (Nat.succ.inj hfront)
      have hget : (keywords.get? name).isSome = true ↔ name ∈ keywords.keys := by
        rw [← not_iff_not, Bool.not_eq_true, Option.isSome_eq_false_iff, Option.isNone_iff_eq_none,
          Entries.get?_eq_none_iff]
      rw [List.forall_mem_cons, ← ih, ← hget]
      simp only [List.cons_append, bindFrom, hkind, hnamed, hname, if_true]
      by_cases hgiven : (keywords.get? name).isSome = true <;> simp [hgiven]
  unfold bind?
  rw [if_neg (by simp [htakes])]
  exact hfrom _

/-! ## The calls in a body -/

namespace Source

variable {b : Blueprint} {m : MethodDef} {c : Method}

/-- What a call of a watching hook says in front of the arguments handed on. -/
def frontOf (m : MethodDef) : Phase → List Arg
  | .before => [.text m.memberId]
  | .after => [.text m.memberId, .name Alias.returnSlot]

/-- The watching calls of a body come of the hooks of all members. -/
theorem mem_observe_bodyOf (built : m.IsBuilt b) {body : List Stmt} {r : String}
    (hr : receiverOf m.signature.kind = some r) (h : bodyOf b m (some r) = .ok body) {call : Call}
    (hcall : .observe call ∈ body.map (Stmt.within b.name)) :
    ∃ phase, call.target = ⟨r, [Advice.catchAll phase]⟩ ∧
      call.args = frontOf m phase ++ m.signature.params.map fun p => (forward p).within b.name := by
  obtain ⟨general, special, hooks, hbefore⟩ := built.before
  obtain ⟨general', special', hooks', hafter⟩ := built.after
  have hwatch : ∀ {phase : Phase} {general special : Option Advice.Call}, m.Hooks phase general special →
      .observe call ∈ watchStmts b m general (frontOf m phase) →
      ∃ phase, call.target = ⟨r, [Advice.catchAll phase]⟩ ∧
        call.args = frontOf m phase ++ m.signature.params.map fun p => (forward p).within b.name := by
    intro phase general special hooks hmem
    obtain ⟨hook, hhook, heq⟩ := List.mem_map.1 hmem
    cases heq
    refine ⟨phase, ?_, ?_⟩
    · show Target.mk (Text.privateName b.name ((receiverOf m.signature.kind).getD b.name))
        [Text.privateName b.name hook.hook] = _
      rw [hr, Option.getD_some, privateName_receiver hr, (hooks.general hook (Option.mem_toList.1 hhook)).1,
        Advice.catchAll, privateName_hook]
    · show (frontOf m phase ++ forwardAll m.signature).map (Arg.within b.name) = _
      have hslot : Text.privateName b.name Alias.returnSlot = Alias.returnSlot :=
        Text.privateName_eq_self (by decide +kernel)
      rw [List.map_append, forwardAll, List.map_map]
      cases phase
      · rfl
      · show Arg.text m.memberId :: Arg.name (Text.privateName b.name Alias.returnSlot) :: _ = _
        rw [hslot]
        rfl
  have hdecision : ∀ {test : String → Stmt} {special : Option Advice.Call} {args : List Arg} {cls : String},
      (∀ cls, .observe call ≠ (test cls).within b.name) → .observe call ∉ decisionStmts b m test special args cls := by
    intro test special args cls htest hmem
    obtain ⟨hook, -, hmem⟩ := List.mem_flatMap.1 hmem
    simp only [List.mem_cons, List.not_mem_nil, or_false] at hmem
    rcases hmem with heq | heq
    · cases heq
    · exact htest cls heq
  rw [← hr] at h
  cases hadvised : m.isAdvised with
  | false =>
    obtain ⟨work, -, hbody⟩ := bodyOf_plain hadvised h
    rw [hbody, List.mem_singleton] at hcall
    cases hcall
  | true =>
    obtain ⟨work, cls, cls', -, -, -, hbody⟩ := bodyOf_advised hooks hbefore hooks' hafter hadvised h
    rw [hbody, advisedBody] at hcall
    simp only [List.mem_append, List.mem_cons, List.not_mem_nil, or_false, reduceCtorEq, false_or] at hcall
    rcases hcall with hcall | hcall | hcall | hcall
    · exact hwatch hooks hcall
    · exact absurd hcall (hdecision fun cls h => by cases h)
    · exact absurd hcall (hdecision fun cls h => by cases h)
    · exact hwatch hooks' hcall

/-- The parameters of a generated hook are those that are documented, behind the receiver. -/
theorem shapes_documented {hook : MethodDef} {phase : Phase} {observer : Method} {receiving : List Parameter}
    (hdocumented : hook.signature.params.map Param.shape = Advice.documented phase) (hc : methodOf b hook = .ok observer)
    (hreceiving : receiving.map Parameter.shape = (observer.within b.name).formals.map Formal.shape) :
    receiving.map Parameter.shape =
      ((receiverOf hook.signature.kind).toList ++ Advice.ownNames phase).map (⟨·, .positionalOrKeyword, false⟩) ++
        Advice.anyArguments := by
  have legal : ParamShape.IsLegal (Advice.documented phase) := by
    cases phase <;> exact ⟨by decide, by decide, by decide⟩
  have hplain : (Advice.documented phase).map (ParamShape.within b.name) = Advice.documented phase := by
    refine List.map_congr_left (g := id) (fun s hs => ?_) |>.trans (List.map_id _)
    have hname : ¬['_', '_'] <:+: s.name.toList := by
      cases phase <;> revert s <;> decide +kernel
    show ParamShape.mk (Text.privateName b.name s.name) s.kind s.hasDefault = s
    rw [Text.privateName_eq_self fun h => hname h.isInfix]
  have hreceiver : ∀ r, ParamShape.receiver r (Advice.documented phase) = ⟨r, .positionalOrKeyword, false⟩ := by
    intro r
    cases phase <;> rfl
  rw [hreceiving, shapes_of_methodOf hc (hdocumented ▸ legal), hdocumented, hplain, List.map_append, List.append_assoc]
  simp only [hreceiver]
  rfl

/-- A call in front of the arguments handed on has what it says: the member, and the result once there is one. -/
theorem exists_front {phase : Phase} {locals : Entries Value} {result : Value}
    (hslot : phase = .after → locals.get? Alias.returnSlot = some result) :
    ∃ front, front.length = (Advice.ownNames phase).length ∧ Front locals (frontOf m phase) front := by
  cases phase with
  | before => exact ⟨[.str m.memberId], rfl, .text .nil⟩
  | after => exact ⟨[.str m.memberId, result], rfl, .text (.name (hslot rfl) .nil)⟩

/--
The arguments of a watching call in the body of an advised method fit a hook as documented exactly if none of the keywords
that are handed on has a name of the hook's own, or comes twice. The keywords that are handed on are the parameters that a
call must name and the keywords that no parameter is named by.
-/
theorem observe_binds_iff {σ : Type} {p : Provider σ} {d : Blueprint.Defaults} {strict : Bool} {q : Request}
    {t t' : Planning σ} (hb : (Blueprint.build p d strict q).runFrom t = (.ok b, t')) (hm : m ∈ b.methods)
    (legal : ParamShape.IsLegal (m.signature.params.map Param.shape)) {r : String}
    (hr : receiverOf m.signature.kind = some r) (hc : methodOf b m = .ok c) {emitted : List Parameter}
    (hemitted : emitted.map Parameter.shape = (c.within b.name).formals.map Formal.shape) {positional : List Value}
    {keywords env : Entries Value} (distinct : keywords.keys.Nodup)
    (hbind : Parameter.bind? emitted positional keywords = some env) {call : Call}
    (hcall : .observe call ∈ (c.within b.name).body) :
    ∃ phase, call.target = ⟨r, [Advice.catchAll phase]⟩ ∧
      ∀ {locals : Entries Value} {result : Value}, (∀ e ∈ env, locals.get? e.1 = some e.2) →
        (phase = .after → locals.get? Alias.returnSlot = some result) →
        ∃ args : Option (List Value × Entries Value),
          (∀ {M : Type → Type} [Monad M] [LawfulMonad M] (s : Surroundings M),
            evalArgs s locals [] [] call.args = pure args) ∧
          ∀ {hook : MethodDef} {observer : Method} {receiving : List Parameter} (self : Value),
            hook.signature.params.map Param.shape = Advice.documented phase → methodOf b hook = .ok observer →
            receiving.map Parameter.shape = (observer.within b.name).formals.map Formal.shape →
            ((args.bind fun a =>
                Parameter.bind? receiving ((receiverOf hook.signature.kind).toList.map (fun _ => self) ++ a.1) a.2).isSome ↔
              (∀ name ∈ m.signature.keywordNames, name ∉ (Parameter.extra emitted keywords).keys) ∧
              ∀ name ∈ (receiverOf hook.signature.kind).toList ++ Advice.ownNames phase,
                name ∉ m.signature.keywordNames ∧ name ∉ (Parameter.extra emitted keywords).keys) := by
  obtain ⟨-, -, -, -, hbody⟩ := methodOf_eq_ok hc
  obtain ⟨phase, htarget, hargs⟩ := mem_observe_bodyOf (MethodDef.isBuilt_of_build hb hm) hr (hr ▸ hbody) hcall
  refine ⟨phase, htarget, fun {locals result} hlocals hslot => ?_⟩
  obtain ⟨bound, vs, ks, handed, hbound⟩ := handed_within (hemitted.trans (shapes_of_methodOf hc legal)) hbind
  have hextra : (Parameter.extra emitted keywords).keys.Nodup := Parameter.nodup_keys_extra distinct
  have htable : ∀ name ∈ (Parameter.extra emitted keywords).keys,
      ∃ s ∈ m.signature.params.map Param.shape, s.kind = .varKeyword := by
    intro name hname
    refine (surplus_of_bind (hemitted.trans (shapes_of_methodOf hc legal)) hbind).resolve_left fun hnil => ?_
    rw [hnil] at hname
    cases hname
  have hnamed : ∀ name, name ∈ ks.keys ↔
      name ∈ m.signature.keywordNames ∨ name ∈ (Parameter.extra emitted keywords).keys := by
    intro name
    rw [handed.mem_keys_iff, Signature.mem_keywordNames, and_iff_right_of_imp (htable name)]
  have hdistinct : ks.keys.Nodup ↔
      ∀ name ∈ m.signature.keywordNames, name ∉ (Parameter.extra emitted keywords).keys := by
    rw [handed.nodup_keys_iff legal hextra]
    constructor
    · intro h name hname hsurplus
      obtain ⟨s, hs, hkind, rfl⟩ := Signature.mem_keywordNames.1 hname
      exact h s hs hkind (htable _ hsurplus) hsurplus
    · intro h s hs hkind _
      exact h s.name (Signature.mem_keywordNames.2 ⟨s, hs, hkind, rfl⟩)
  obtain ⟨front, hlength, hfront⟩ := exists_front (m := m) hslot
  have hhere : ∀ e ∈ bound, locals.get? (Text.privateName b.name e.1) = some e.2 := fun e he =>
    hlocals (Text.privateName b.name e.1, e.2) (List.mem_of_mem_drop (hbound ▸ List.mem_map_of_mem he))
  by_cases hmeet : ks.keys.Nodup
  · refine ⟨some (front ++ vs, ks), fun s => ?_, fun self hdocumented hobserver hreceiving => ?_⟩
    · rw [hargs, hfront.evalArgs, List.nil_append]
      exact evalArgs_forward s b.name handed rfl hhere hmeet
    · rw [and_iff_right (hdistinct.1 hmeet)]
      show (Parameter.bind? _ (_ ++ (front ++ vs)) ks).isSome = true ↔ _
      rw [← List.append_assoc, Parameter.bind?_documented (shapes_documented hdocumented hobserver hreceiving)
        (by simp [hlength])]
      simp only [hnamed, not_or]
  · refine ⟨none, fun s => ?_, fun self _ _ _ => ?_⟩
    · rw [hargs, hfront.evalArgs, List.nil_append]
      exact evalArgs_clash s b.name handed rfl hhere List.nodup_nil hmeet
    · rw [← hdistinct, iff_false_right fun h => hmeet h.1]
      simp

end Source

/-! ## A watched payment -/

/-- A cart whose payments take any options, and a mixin that watches each call. -/
def Manifest.metered : List Manifest :=
  [{ ref := ⟨"shop", "Cart"⟩, members := [{ name := "pay", params := [{ name := "options", kind := .varKeyword }] }] },
    { ref := ⟨"shop", "Timer"⟩
      members := [{ name := "BEFORE_ALL", params := [{ name := "member_id" }, { name := "args", kind := .varPositional },
        { name := "kwargs", kind := .varKeyword }] }] }]

def Request.metered : Request :=
  { name := "Sale", base := .text "shop:Cart", mixins := [.text "shop:Timer"], before := .some [.name "pay"] }

namespace Metered

def pay : MethodDef :=
  { name := "pay", memberId := "Sale.pay", reference := "shop:Cart", core := .call ⟨"shop:Cart", "pay"⟩
    signature := { name := "pay", params := [{ name := "options", kind := .varKeyword }] }
    before := [⟨"BEFORE_ALL", .before, .catchAll, false⟩] }

def beforeAll : MethodDef :=
  { name := "BEFORE_ALL", memberId := "Sale.BEFORE_ALL", reference := "shop:Timer"
    core := .call ⟨"shop:Timer", "BEFORE_ALL"⟩
    signature :=
      { name := "BEFORE_ALL"
        params := [{ name := "member_id" }, { name := "args", kind := .varPositional },
          { name := "kwargs", kind := .varKeyword }] } }

/-- The parameters of the generated payment. -/
def paying : List Parameter := [{ name := "self" }, { name := "options", kind := .varKeyword }]

/-- The parameters of the generated hook. -/
def watching : List Parameter :=
  [{ name := "self" }, { name := "member_id" }, { name := "args", kind := .varPositional },
    { name := "kwargs", kind := .varKeyword }]

end Metered

/-- A payment may be given an amount, but if it is given a member, then the hook cannot be called. -/
theorem Source.observe_binds_iff_metered : ∃ b t' c call,
    (Blueprint.build (Provider.ofManifests Manifest.metered) ⟨.function 0, .function 1, .cls 2, .cls 3, .function 4⟩ true
      .metered).runFrom ⟨(), []⟩ = (.ok b, t') ∧ methodOf b Metered.pay = .ok c ∧
    .observe call ∈ (c.within b.name).body ∧ ∀ name ∈ ["amount", "member_id"], ∃ env args,
      Parameter.bind? Metered.paying [.inst 0] [(name, .int 5)] = some env ∧
      (∀ {M : Type → Type} [Monad M] [LawfulMonad M] (s : Surroundings M),
        evalArgs s env [] [] call.args = pure args) ∧
      ((args.bind fun a => Parameter.bind? Metered.watching (.inst 0 :: a.1) a.2).isSome = true ↔ name = "amount") := by
  generalize hrun : (Blueprint.build (Provider.ofManifests Manifest.metered) _ true _).runFrom (⟨(), []⟩ : Planning Unit) = r
  have hmethods : r.1.toOption.map Blueprint.methods = some [Metered.pay, Metered.beforeAll] := by
    rw [← hrun]
    decide +kernel
  have hpay : (r.1.toOption.bind fun b => (methodOf b Metered.pay).toOption.map fun c =>
      ((c.within b.name).formals.map Formal.shape, (c.within b.name).body.head?)) =
        some (Metered.paying.map Parameter.shape,
          some (.observe ⟨⟨"self", ["BEFORE_ALL"]⟩, [.text "Sale.pay", .spreadNamed "options"], false⟩)) := by
    rw [← hrun]
    decide +kernel
  have hwatch : (r.1.toOption.bind fun b => (methodOf b Metered.beforeAll).toOption.map fun c =>
      (c.within b.name).formals.map Formal.shape) = some (Metered.watching.map Parameter.shape) := by
    rw [← hrun]
    decide +kernel
  obtain ⟨outcome, t'⟩ := r
  cases outcome with
  | error e => cases hmethods
  | ok b =>
    have hmethods : b.methods = [Metered.pay, Metered.beforeAll] := Option.some.inj hmethods
    obtain ⟨c, hc, hpay⟩ := Option.map_eq_some_iff.1 hpay
    obtain ⟨observer, hobserver, hwatch⟩ := Option.map_eq_some_iff.1 hwatch
    have hc : methodOf b Metered.pay = .ok c := Outcome.eq_ok_of_toOption hc
    have hobserver : methodOf b Metered.beforeAll = .ok observer := Outcome.eq_ok_of_toOption hobserver
    rw [Prod.mk.injEq] at hpay
    obtain ⟨hpay, hhead⟩ := hpay
    have hcall := List.mem_of_mem_head? hhead
    have hm : Metered.pay ∈ b.methods := by simp [hmethods]
    have legal : ParamShape.IsLegal (Metered.pay.signature.params.map Param.shape) := ⟨by decide, by decide, by decide⟩
    refine ⟨b, t', c, _, rfl, hc, hcall, fun name hname => ?_⟩
    have hbind : Parameter.bind? Metered.paying [.inst 0] [(name, .int 5)] =
        some [("self", .inst 0), ("options", .dict [(.str name, .int 5)])] := by
      simp only [List.mem_cons, List.not_mem_nil, or_false] at hname
      rcases hname with rfl | rfl <;> rfl
    have hextra : (Parameter.extra Metered.paying [(name, .int 5)]).keys = [name] := by
      simp only [List.mem_cons, List.not_mem_nil, or_false] at hname
      rcases hname with rfl | rfl <;> rfl
    obtain ⟨phase, htarget, hobserves⟩ := observe_binds_iff hrun hm legal rfl hc hpay.symm (by simp [Entries.keys]) hbind
      hcall
    obtain rfl : phase = .before := by
      cases phase
      · rfl
      · exact absurd htarget (by decide +kernel)
    obtain ⟨args, hargs, hfits⟩ := @hobserves [("self", .inst 0), ("options", .dict [(.str name, .int 5)])] .none
      (fun e he => Entries.get?_of_mem (by simp [Entries.keys]) he) (fun h => by cases h)
    have hfits := @hfits Metered.beforeAll _ _ (.inst 0) rfl hobserver hwatch.symm
    refine ⟨_, args, hbind, hargs, hfits.trans ?_⟩
    rw [hextra]
    simp only [List.mem_cons, List.not_mem_nil, or_false] at hname
    rcases hname with rfl | rfl <;> decide +kernel

end Amalgam
