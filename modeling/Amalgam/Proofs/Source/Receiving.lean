import Amalgam.Proofs.Source.Body

/-!
# What a generated method receives

A call of a generated method binds the parameters under the names that its class makes of them. The body hands them on
under the names that its signature has (`Source.handed_within`), so that keywords may meet that no call could give
together; which these are is said by `Handed.nodup_keys_iff`, and then the arguments cannot be evaluated
(`Source.evalArgs_clash`).
-/

namespace Amalgam

open Source (receiverOf forward forwardAll withReceiver)

/-- A parameter under the name that a class makes of it. -/
def ParamShape.within (owner : String) (s : ParamShape) : ParamShape := { s with name := Text.privateName owner s.name }

/-- The parameter that takes the receiver, in front of others. -/
def ParamShape.receiver (name : String) (ss : List ParamShape) : ParamShape where
  name := name
  kind := if ss.any fun s => s.kind == .positionalOnly then .positionalOnly else .positionalOrKeyword
  hasDefault := false

theorem ParamShape.isPositional_receiver (name : String) (ss : List ParamShape) :
    (ParamShape.receiver name ss).isPositional = true := by
  unfold ParamShape.isPositional ParamShape.receiver
  dsimp only
  split <;> rfl

/-- The receiver may stand in front of the others, whatever they are called. -/
theorem ParamShape.receiver_precedes {ss : List ParamShape} {s : ParamShape} (hs : s ∈ ss) (name owner : String) :
    (ParamShape.receiver name ss).Precedes (s.within owner) := by
  refine ⟨?_, fun _ => ?_, fun _ _ hdefault => by cases hdefault⟩
  · show ParamKind.rank (if _ then _ else _) ≤ s.kind.rank
    split
    · exact Nat.zero_le _
    · rename_i hnone
      refine Nat.one_le_iff_ne_zero.2 fun hzero => hnone (List.any_eq_true.2 ⟨s, hs, ?_⟩)
      rw [ParamKind.rank_injective (l := .positionalOnly) hzero]
      rfl
  · show ParamKind.isVariadic (if _ then _ else _) = false
    split <;> rfl

namespace Handed

variable {extra : Entries Value} {ss : List ParamShape} {env : Entries Value} {vs : List Value} {ks : Entries Value}

/-- The keywords handed on are the parameters that only go by their names, and what is surplus. -/
theorem mem_keys_iff (h : Handed extra ss env vs ks) (name : String) : name ∈ ks.keys ↔
    (∃ s ∈ ss, s.kind = .keywordOnly ∧ s.name = name) ∨ (∃ s ∈ ss, s.kind = .varKeyword) ∧ name ∈ extra.keys := by
  induction h with
  | nil => simp [Entries.keys]
  | @positional s v ss env vs ks hs _ ih =>
    have hkind : s.kind ≠ .keywordOnly ∧ s.kind ≠ .varKeyword := by
      constructor <;> intro hkind <;> simp [ParamShape.isPositional, hkind] at hs
    simp [ih, hkind]
  | surplus hs _ ih => simp [ih, hs]
  | @keyword s v ss env vs ks hs _ ih =>
    have hcons : name ∈ Entries.keys ((s.name, v) :: ks) ↔ name = s.name ∨ name ∈ ks.keys := List.mem_cons
    rw [hcons, ih]
    simp [hs, or_assoc, eq_comm]
  | @table s ss env vs ks hs _ ih =>
    have happend : name ∈ Entries.keys (extra ++ ks) ↔ name ∈ extra.keys ∨ name ∈ ks.keys := by
      simp [Entries.keys]
    rw [happend, ih]
    simp only [List.exists_mem_cons_iff, hs, reduceCtorEq, false_and, false_or, true_or, true_and]
    generalize (∃ s ∈ ss, s.kind = .keywordOnly ∧ s.name = name) = given
    generalize (∃ s ∈ ss, s.kind = .varKeyword) = another
    tauto

/-- A keyword is handed on twice exactly if what is surplus has the name of a parameter that only goes by its name. -/
theorem nodup_keys_iff (h : Handed extra ss env vs ks) (legal : ParamShape.IsLegal ss) (hextra : extra.keys.Nodup) :
    ks.keys.Nodup ↔ ∀ s ∈ ss, s.kind = .keywordOnly → (∃ t ∈ ss, t.kind = .varKeyword) → s.name ∉ extra.keys := by
  induction h with
  | nil => simp [Entries.keys]
  | @positional s v ss env vs ks hs _ ih =>
    have hkind : s.kind ≠ .keywordOnly ∧ s.kind ≠ .varKeyword := by
      constructor <;> intro hkind <;> simp [ParamShape.isPositional, hkind] at hs
    simp [ih legal.tail, hkind]
  | surplus hs _ ih => simp [ih legal.tail, hs]
  | @keyword s v ss env vs ks hs rest ih =>
    have hfresh : ¬∃ t ∈ ss, t.kind = .keywordOnly ∧ t.name = s.name := by
      rintro ⟨t, ht, -, hname⟩
      exact (List.nodup_cons.1 legal.distinct).1 (List.mem_map.2 ⟨t, ht, hname⟩)
    have hcons : (Entries.keys ((s.name, v) :: ks)).Nodup ↔ s.name ∉ ks.keys ∧ ks.keys.Nodup := List.nodup_cons
    rw [hcons, ih legal.tail, rest.mem_keys_iff]
    simp only [hfresh, false_or, not_and, List.forall_mem_cons, List.exists_mem_cons_iff, hs, true_imp_iff, reduceCtorEq]
  | @table s ss env vs ks hs rest _ =>
    have hnil := legal.nil_of_table hs
    subst hnil
    rw [rest.keywords_eq_nil, List.append_nil]
    simp [hs, hextra]

/-- What parameters are handed on as does not depend on the names that a class makes of them, those of keywords apart. -/
theorem of_within {owner : String} (h : Handed extra (ss.map (ParamShape.within owner)) env vs ks) :
    ∃ bound ks', Handed extra ss bound vs ks' ∧ env = bound.map fun e => (Text.privateName owner e.1, e.2) := by
  generalize hwithin : ss.map (ParamShape.within owner) = ss' at h
  induction h generalizing ss with
  | nil =>
    rw [List.map_eq_nil_iff] at hwithin
    subst hwithin
    exact ⟨[], [], .nil, rfl⟩
  | @positional s' v ss' env vs ks hs _ ih =>
    obtain ⟨s, ss, rfl, rfl, hss⟩ := List.map_eq_cons_iff.1 hwithin
    obtain ⟨bound, ks', rest, rfl⟩ := ih hss
    exact ⟨(s.name, v) :: bound, ks', .positional hs rest, rfl⟩
  | @surplus s' ws ss' env vs ks hs _ ih =>
    obtain ⟨s, ss, rfl, rfl, hss⟩ := List.map_eq_cons_iff.1 hwithin
    obtain ⟨bound, ks', rest, rfl⟩ := ih hss
    exact ⟨(s.name, .tuple ws) :: bound, ks', .surplus hs rest, rfl⟩
  | @keyword s' v ss' env vs ks hs _ ih =>
    obtain ⟨s, ss, rfl, rfl, hss⟩ := List.map_eq_cons_iff.1 hwithin
    obtain ⟨bound, ks', rest, rfl⟩ := ih hss
    exact ⟨(s.name, v) :: bound, (s.name, v) :: ks', .keyword hs rest, rfl⟩
  | @table s' ss' env vs ks hs _ ih =>
    obtain ⟨s, ss, rfl, rfl, hss⟩ := List.map_eq_cons_iff.1 hwithin
    obtain ⟨bound, ks', rest, rfl⟩ := ih hss
    exact ⟨(s.name, Parameter.tableOf extra) :: bound, extra ++ ks', .table hs rest, rfl⟩

end Handed

namespace Source

variable {b : Blueprint} {m : MethodDef} {c : Method}

/-! ## Arguments that meet -/

/-- Keywords that meet others cannot be added. -/
theorem addKeywords_eq_none {done ks : Entries Value} (hdone : done.keys.Nodup) (h : ¬(done ++ ks).keys.Nodup) :
    addKeywords done (ks.map fun e => (.str e.1, e.2)) = none := by
  induction ks generalizing done with
  | nil => exact absurd (by simpa using hdone) h
  | cons e ks ih =>
    obtain ⟨k, v⟩ := e
    rw [List.map_cons, addKeywords]
    by_cases hk : k ∈ done.keys
    · rw [if_pos ((Entries.has_iff_mem_keys _ _).2 hk)]
    · rw [if_neg fun hhas => hk ((Entries.has_iff_mem_keys _ _).1 hhas), Entries.put_of_not_mem hk]
      refine ih ?_ (by simpa using h)
      rw [← Entries.put_of_not_mem hk]
      exact Entries.nodup_keys_put hdone k v

/-- Arguments that hand a keyword on twice cannot be evaluated, whatever the surroundings. -/
theorem evalArgs_clash {M : Type → Type} [Monad M] [LawfulMonad M] (s : Surroundings M) (owner : String)
    {extra : Entries Value} {ss : List ParamShape} {env : Entries Value} {vs : List Value} {ks : Entries Value}
    {locals : Entries Value} (h : Handed extra ss env vs ks) {ps : List Param} (hp : ps.map Param.shape = ss)
    (hlocals : ∀ e ∈ env, locals.get? (Text.privateName owner e.1) = some e.2) {vs' : List Value} {ks' : Entries Value}
    (hdone : ks'.keys.Nodup) (hks : ¬(ks' ++ ks).keys.Nodup) :
    evalArgs s locals vs' ks' (ps.map fun p => (forward p).within owner) = pure none := by
  induction h generalizing ps vs' ks' with
  | nil => exact absurd (by simpa using hdone) hks
  | @positional t v ss env vs ks ht _ ih =>
    obtain ⟨p, ps, rfl, rfl, hps⟩ := List.map_eq_cons_iff.1 hp
    rw [List.map_cons, evalArgs_positional s ht (hlocals (p.name, v) List.mem_cons_self)]
    exact ih hps (List.forall_mem_cons.1 hlocals).2 hdone hks
  | @surplus t ws ss env vs ks ht _ ih =>
    obtain ⟨p, ps, rfl, rfl, hps⟩ := List.map_eq_cons_iff.1 hp
    rw [List.map_cons, evalArgs_surplus s ht (hlocals (p.name, .tuple ws) List.mem_cons_self)]
    exact ih hps (List.forall_mem_cons.1 hlocals).2 hdone hks
  | @keyword t v ss env vs ks ht _ ih =>
    obtain ⟨p, ps, rfl, rfl, hps⟩ := List.map_eq_cons_iff.1 hp
    rw [List.map_cons, evalArgs_keyword s ht (hlocals (p.name, v) List.mem_cons_self)]
    by_cases hhere : (ks' ++ [(p.name, v)]).keys.Nodup
    · rw [addKeywords_eq_some hhere]
      exact ih hps (List.forall_mem_cons.1 hlocals).2 hhere (by rwa [List.append_assoc])
    · rw [addKeywords_eq_none hdone hhere]
      rfl
  | @table t ss env vs ks ht _ ih =>
    obtain ⟨p, ps, rfl, rfl, hps⟩ := List.map_eq_cons_iff.1 hp
    rw [List.map_cons, evalArgs_table s ht (hlocals (p.name, Parameter.tableOf extra) List.mem_cons_self)]
    by_cases hextra : (ks' ++ extra).keys.Nodup
    · rw [addKeywords_eq_some hextra]
      exact ih hps (List.forall_mem_cons.1 hlocals).2 hextra (by rwa [List.append_assoc])
    · rw [addKeywords_eq_none hdone hextra]
      rfl

/-! ## Calls of a generated method -/

/-- Inside the class, the parameters of a method are those of its signature behind the receiver, under the names there. -/
theorem shapes_of_methodOf (hc : methodOf b m = .ok c) (legal : ParamShape.IsLegal (m.signature.params.map Param.shape)) :
    (c.within b.name).formals.map Formal.shape =
      ((receiverOf m.signature.kind).toList.map fun r => .receiver r (m.signature.params.map Param.shape)) ++
        (m.signature.params.map Param.shape).map (ParamShape.within b.name) := by
  obtain ⟨-, -, -, hformals, -⟩ := methodOf_eq_ok hc
  obtain ⟨reference, fs, -, -, hshapes, heq⟩ := (formalsOf_eq_ok legal).1 hformals
  have hwithin : ∀ fs : List Formal, (fs.map (Formal.within b.name)).map Formal.shape =
      (fs.map Formal.shape).map (ParamShape.within b.name) := by
    intro fs
    rw [List.map_map, List.map_map]
    refine List.map_congr_left fun f _ => ?_
    show ParamShape.mk _ _ (f.default.map _).isSome = _
    rw [Option.isSome_map]
    rfl
  show (c.formals.map (Formal.within b.name)).map Formal.shape = _
  rw [heq, hwithin]
  cases hr : receiverOf m.signature.kind with
  | none =>
    show (fs.map Formal.shape).map _ = _
    rw [hshapes]
    rfl
  | some r =>
    have hany : (fs.any fun f => f.kind == .positionalOnly) =
        (m.signature.params.map Param.shape).any fun s => s.kind == .positionalOnly := by
      rw [← hshapes, List.any_map]
      rfl
    show ParamShape.within b.name ⟨r, _, false⟩ :: (fs.map Formal.shape).map _ = _
    rw [hshapes, hany]
    show ParamShape.mk (Text.privateName b.name r) _ _ :: _ = _
    rw [privateName_receiver hr]
    rfl

/-- What a call binds to the parameters of a generated method is handed on under the names of its signature. -/
theorem handed_within {r : Option String} {ss : List ParamShape} {owner : String} {emitted : List Parameter}
    (hemitted : emitted.map Parameter.shape = (r.toList.map fun r => .receiver r ss) ++ ss.map (ParamShape.within owner))
    {positional : List Value} {keywords env : Entries Value} (hbind : Parameter.bind? emitted positional keywords = some env) :
    ∃ bound vs ks, Handed (Parameter.extra emitted keywords) ss bound vs ks ∧
      env.drop r.toList.length = bound.map fun e => (Text.privateName owner e.1, e.2) := by
  obtain ⟨hfrom, -⟩ := Parameter.bind?_eq_some hbind
  have hrest : ∃ qs rest, Parameter.bindFrom keywords (Parameter.extra emitted keywords) qs rest =
      some (env.drop r.toList.length) ∧ qs.map Parameter.shape = ss.map (ParamShape.within owner) := by
    cases r with
    | none => exact ⟨emitted, positional, hfrom, hemitted⟩
    | some r =>
      obtain ⟨q, qs, rfl, hq, hqs⟩ := List.map_eq_cons_iff.1 hemitted
      obtain ⟨v, rest, env', rfl, hrest⟩ :=
        Parameter.bindFrom_positional (hq ▸ ParamShape.isPositional_receiver r ss) hfrom
      exact ⟨qs, rest, hrest, hqs⟩
  obtain ⟨qs, rest, hrest, hqs⟩ := hrest
  obtain ⟨vs, ks', handed⟩ := Parameter.exists_handed hrest
  rw [hqs] at handed
  obtain ⟨bound, ks, handed, henv⟩ := handed.of_within
  exact ⟨bound, vs, ks, handed, henv⟩

/-- A call that leaves keywords over goes to a method whose signature takes them. -/
theorem surplus_of_bind {r : Option String} {ss : List ParamShape} {owner : String} {emitted : List Parameter}
    (hemitted : emitted.map Parameter.shape = (r.toList.map fun r => .receiver r ss) ++ ss.map (ParamShape.within owner))
    {positional : List Value} {keywords env : Entries Value} (hbind : Parameter.bind? emitted positional keywords = some env) :
    Parameter.extra emitted keywords = [] ∨ ∃ s ∈ ss, s.kind = .varKeyword := by
  refine (Parameter.bind?_eq_some hbind).2.imp_right ?_
  rintro ⟨s, hs, hkind⟩
  rw [hemitted, List.mem_append] at hs
  rcases hs with hs | hs
  · obtain ⟨name, -, rfl⟩ := List.mem_map.1 hs
    have hpositional := ParamShape.isPositional_receiver name ss
    rw [ParamShape.isPositional, hkind] at hpositional
    cases hpositional
  · obtain ⟨t, ht, rfl⟩ := List.mem_map.1 hs
    exact ⟨t, ht, hkind⟩

end Source

end Amalgam
