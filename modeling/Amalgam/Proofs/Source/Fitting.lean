import Amalgam.Proofs.Source.Receiving

/-!
# Arguments that fit

Binding goes through the parameters one by one, and each gets its value in one of five ways (`Parameter.bindFrom_place` and
its siblings). Whether arguments fit depends on the shapes of the parameters (`Parameter.isSome_bind?_congr`); a class that
renames none that a keyword may name changes nothing but the names in the binding (`Parameter.bind?_within`); and for any
parameters there are arguments that fit (`Parameter.exists_bind?`).
-/

namespace Amalgam

namespace Parameter

variable {p : Parameter} {ps qs : List Parameter} {x : Value} {args : List Value} {keywords surplus : Entries Value}

theorem bind?_eq_ite : bind? ps args keywords =
    if extra ps keywords = [] ∨ ∃ p ∈ ps, p.kind = .varKeyword then bindFrom keywords (extra ps keywords) ps args
    else none := by
  have hiff : (!(extra ps keywords).isEmpty && !ps.any fun p => p.kind == .varKeyword) = true ↔
      ¬(extra ps keywords = [] ∨ ∃ p ∈ ps, p.kind = .varKeyword) := by
    simp
  show (if (!(extra ps keywords).isEmpty && !ps.any fun p => p.kind == .varKeyword) = true then _ else _) = _
  simp only [hiff, ite_not]

theorem extra_cons_of_free (h : ¬(p.isNamed = true ∧ p.name ∈ keywords.keys)) :
    extra (p :: ps) keywords = extra ps keywords := by
  refine List.filter_congr fun e he => ?_
  have hname : (p.isNamed && p.name == e.1) = false := by
    by_contra hname
    rw [Bool.not_eq_false, Bool.and_eq_true, beq_iff_eq] at hname
    exact h ⟨hname.1, hname.2 ▸ List.mem_map_of_mem he⟩
  rw [List.any_cons, hname, Bool.false_or]

/-- A parameter that takes an argument by its place must not be named as well. -/
theorem bind?_positional (hp : p.isPositional = true) : bind? (p :: ps) (x :: args) keywords =
    if p.isNamed = true ∧ p.name ∈ keywords.keys then none else (bind? ps args keywords).map ((p.name, x) :: ·) := by
  have htable : p.kind ≠ .varKeyword := by
    intro hkind
    rw [isPositional, hkind] at hp
    cases hp
  rw [bind?_eq_ite, bind?_eq_ite, bindFrom_place hp]
  simp only [isSome_given?_iff, List.exists_mem_cons_iff, htable, false_or]
  by_cases hclash : p.isNamed = true ∧ p.name ∈ keywords.keys
  · simp only [if_pos hclash, ite_self]
  · simp only [if_neg hclash, extra_cons_of_free hclash]
    split <;> rfl

/-- A parameter that takes all arguments by their places takes them all. -/
theorem bind?_variadic (hp : p.kind = .varPositional) :
    bind? (p :: ps) args keywords = (bind? ps [] keywords).map ((p.name, .tuple args) :: ·) := by
  have hnamed : ¬(p.isNamed = true ∧ p.name ∈ keywords.keys) := by
    rw [isNamed, hp]
    simp
  rw [bind?_eq_ite, bind?_eq_ite, bindFrom_varPositional hp, extra_cons_of_free hnamed]
  simp only [List.exists_mem_cons_iff, hp, reduceCtorEq, false_or]
  split <;> rfl

/-- Where no parameter takes arguments by their places, there must be none. -/
theorem bind?_late (h : ∀ p ∈ ps, 2 < p.kind.rank) : bind? ps (x :: args) keywords = none := by
  have hfrom : ∀ surplus, bindFrom keywords surplus ps (x :: args) = none := by
    intro surplus
    induction ps with
    | nil => rfl
    | cons p ps ih =>
      obtain ⟨hp, hps⟩ := List.forall_mem_cons.1 h
      have ih := ih hps
      obtain hkind | hkind | hkind | hkind := p.kind_cases
      · have hrank : p.kind.rank < 2 := by
          simp only [isPositional, Bool.or_eq_true, beq_iff_eq] at hkind
          rcases hkind with hkind | hkind <;> rw [hkind] <;> decide
        omega
      · rw [bindFrom_keywordOnly hkind, ih]
        cases p.given? keywords <|> p.default <;> rfl
      · rw [hkind] at hp
        exact absurd hp (by decide)
      · rw [bindFrom_varKeyword hkind, ih]
        rfl
  rw [bind?_eq_ite, hfrom, ite_self]

theorem given?_congr {q : Parameter} (h : q.shape = p.shape) : q.given? keywords = p.given? keywords := by
  have hname : q.name = p.name := congrArg ParamShape.name h
  have hnamed : q.isNamed = p.isNamed := congrArg ParamShape.isNamed h
  unfold given?
  rw [hname, hnamed]

/-- Whether arguments fit is a matter of the shapes of parameters. -/
theorem isSome_bind?_congr (h : qs.map shape = ps.map shape) (args : List Value) (keywords : Entries Value) :
    (bind? qs args keywords).isSome = (bind? ps args keywords).isSome := by
  have hfrom : ∀ surplus, (bindFrom keywords surplus qs args).isSome = (bindFrom keywords surplus ps args).isSome := by
    intro surplus
    induction ps generalizing qs args with
    | nil => rw [List.map_eq_nil_iff.1 h]
    | cons p ps ih =>
      obtain ⟨q, qs, rfl, hq, hqs⟩ := List.map_eq_cons_iff.1 h
      have ih := fun args => ih hqs args
      have hkind : q.kind = p.kind := congrArg ParamShape.kind hq
      have hpositional : q.isPositional = p.isPositional := congrArg ParamShape.isPositional hq
      have hvalue : (q.given? keywords <|> q.default).isSome = (p.given? keywords <|> p.default).isSome := by
        rw [given?_congr hq]
        cases p.given? keywords with
        | none => exact congrArg ParamShape.hasDefault hq
        | some v => rfl
      have hnext : ∀ args, ((q.given? keywords <|> q.default).bind fun v =>
            (bindFrom keywords surplus qs args).map ((q.name, v) :: ·)).isSome =
          ((p.given? keywords <|> p.default).bind fun v =>
            (bindFrom keywords surplus ps args).map ((p.name, v) :: ·)).isSome := by
        intro args
        have ih := ih args
        generalize (q.given? keywords <|> q.default) = v at hvalue
        generalize (p.given? keywords <|> p.default) = v' at hvalue
        cases v <;> cases v' <;> simp_all
      obtain hp | hp | hp | hp := p.kind_cases
      · cases args with
        | nil => rw [bindFrom_name (hpositional.trans hp), bindFrom_name hp, hnext]
        | cons v args =>
          rw [bindFrom_place (hpositional.trans hp), bindFrom_place hp, given?_congr hq]
          split
          · rfl
          · rw [Option.isSome_map, Option.isSome_map, ih]
      · rw [bindFrom_keywordOnly (hkind.trans hp), bindFrom_keywordOnly hp, hnext]
      · rw [bindFrom_varPositional (hkind.trans hp), bindFrom_varPositional hp, Option.isSome_map,
          Option.isSome_map, ih]
      · rw [bindFrom_varKeyword (hkind.trans hp), bindFrom_varKeyword hp, Option.isSome_map,
          Option.isSome_map, ih]
  have htable : (∃ p ∈ qs, p.kind = .varKeyword) ↔ ∃ p ∈ ps, p.kind = .varKeyword := by
    have hany : ∀ ps : List Parameter, (∃ p ∈ ps, p.kind = .varKeyword) ↔ ∃ s ∈ ps.map shape, s.kind = .varKeyword :=
      fun ps => by simp [shape]
    rw [hany, hany, h]
  rw [bind?_eq_ite, bind?_eq_ite, extra_eq, extra_eq, h]
  simp only [htable]
  split
  · exact hfrom _
  · rfl

/-- A binding has the names of the parameters. -/
theorem keys_of_bind? {env : Entries Value} (h : bind? ps args keywords = some env) : env.keys = ps.map name := by
  obtain ⟨vs, ks, handed⟩ := exists_handed (bind?_eq_some h).1
  rw [handed.keys_env, List.map_map]
  rfl

/-- What is handed on by places does not fit together with a keyword that names one of those places. -/
theorem bindFrom_of_named {extra env ks : Entries Value} {vs : List Value} (handed : Handed extra (ps.map shape) env vs ks)
    (legal : ParamShape.IsLegal (ps.map shape)) (hp : p ∈ ps) (hpositional : p.isPositional = true)
    (hnamed : p.isNamed = true) (hkey : p.name ∈ keywords.keys) : bindFrom keywords surplus ps vs = none := by
  have hlast : p.kind.rank < 2 := by
    simp only [isPositional, Bool.or_eq_true, beq_iff_eq] at hpositional
    rcases hpositional with hkind | hkind <;> rw [hkind] <;> decide
  induction ps generalizing env vs ks with
  | nil => cases hp
  | cons q ps ih =>
    have hq : q.isPositional = true := by
      rcases List.mem_cons.1 hp with rfl | hp
      · exact hpositional
      · have hrank : q.kind.rank ≤ p.kind.rank :=
          ((List.pairwise_cons.1 legal.ordered).1 p.shape (List.mem_map_of_mem hp)).1
        obtain hkind | hkind | hkind | hkind := q.kind_cases
        · exact hkind
        all_goals
          rw [hkind] at hrank
          exact absurd (Nat.lt_of_le_of_lt hrank hlast) (by decide)
    have hplace : ∃ v vs' env', vs = v :: vs' ∧ Handed extra (ps.map shape) env' vs' ks := by
      cases handed with
      | positional _ rest => exact ⟨_, _, _, rfl, rest⟩
      | surplus hs _ =>
        have hq : q.shape.isPositional = true := hq
        rw [ParamShape.isPositional, hs] at hq
        cases hq
      | keyword hs _ =>
        have hq : q.shape.isPositional = true := hq
        rw [ParamShape.isPositional, hs] at hq
        cases hq
      | table hs _ =>
        have hq : q.shape.isPositional = true := hq
        rw [ParamShape.isPositional, hs] at hq
        cases hq
    obtain ⟨v, rest, env, rfl, hrest⟩ := hplace
    rw [bindFrom_place hq]
    rcases List.mem_cons.1 hp with rfl | hp
    · rw [if_pos (isSome_given?_iff.2 ⟨hnamed, hkey⟩)]
    · rw [ih hrest legal.tail hp, Option.map_none, ite_self]

/-- Keywords that fit name parameters, unless there is one for any others. -/
theorem exists_named_of_bind? {env : Entries Value} (h : bind? ps args keywords = some env) :
    (∃ p ∈ ps, p.kind = .varKeyword) ∨ ∀ name ∈ keywords.keys, ∃ p ∈ ps, p.isNamed = true ∧ p.name = name := by
  rw [bind?_eq_ite] at h
  split at h
  · rename_i hfits
    refine hfits.symm.imp_right fun hnil name hname => ?_
    obtain ⟨e, he, rfl⟩ := List.mem_map.1 hname
    have hmet := List.filter_eq_nil_iff.1 hnil e he
    simpa using hmet
  · cases h

/-! ## Renamed parameters -/

/-- A parameter under the name that a class makes of it. -/
def within (owner : String) (p : Parameter) : Parameter := { p with name := Text.privateName owner p.name }

theorem shape_within (owner : String) (ps : List Parameter) :
    (ps.map (within owner)).map shape = (ps.map shape).map (ParamShape.within owner) := by
  rw [List.map_map, List.map_map]
  rfl

/-- What is bound, under the names that a class makes of parameters. -/
def bound (owner : String) (env : Entries Value) : Entries Value := env.map fun e => (Text.privateName owner e.1, e.2)

/-- Parameters that keep the names that keywords may have are bound as before, under the names that they get. -/
theorem bind?_within {owner : String}
    (stable : ∀ p ∈ ps, p.isNamed = true → Text.privateName owner p.name = p.name) :
    bind? (ps.map (within owner)) args keywords = (bind? ps args keywords).map (bound owner) := by
  have hgiven : ∀ p ∈ ps, (p.within owner).given? keywords = p.given? keywords := by
    intro p hp
    show (if p.isNamed = true then keywords.get? (Text.privateName owner p.name) else none) = _
    unfold given?
    split
    · rename_i hnamed
      rw [stable p hp hnamed]
    · rfl
  have hfrom : ∀ surplus, bindFrom keywords surplus (ps.map (within owner)) args =
      (bindFrom keywords surplus ps args).map (bound owner) := by
    intro surplus
    clear stable
    induction ps generalizing args with
    | nil => cases args <;> rfl
    | cons p ps ih =>
      obtain ⟨hp, hps⟩ := List.forall_mem_cons.1 hgiven
      have ih := fun args => @ih args hps
      have hcons : ∀ (v : Value) (rest : Option (Entries Value)),
          (rest.map (bound owner)).map (((p.within owner).name, v) :: ·) = (rest.map ((p.name, v) :: ·)).map (bound owner) := by
        intro v rest
        cases rest <;> rfl
      have hnext : ∀ (v : Option Value) (rest : Option (Entries Value)),
          (v.bind fun v => (rest.map (bound owner)).map (((p.within owner).name, v) :: ·)) =
            (v.bind fun v => rest.map ((p.name, v) :: ·)).map (bound owner) := by
        intro v rest
        cases v
        · rfl
        · exact hcons _ _
      rw [List.map_cons]
      obtain hkind | hkind | hkind | hkind := p.kind_cases
      · cases args with
        | nil => rw [bindFrom_name (p := p.within owner) hkind, bindFrom_name hkind, hp, ih, hnext]; rfl
        | cons v args =>
          rw [bindFrom_place (p := p.within owner) hkind, bindFrom_place hkind, hp, ih, hcons]
          split <;> rfl
      · rw [bindFrom_keywordOnly (p := p.within owner) hkind, bindFrom_keywordOnly hkind, hp, ih, hnext]
        rfl
      · rw [bindFrom_varPositional (p := p.within owner) hkind, bindFrom_varPositional hkind, ih, hcons]
      · rw [bindFrom_varKeyword (p := p.within owner) hkind, bindFrom_varKeyword hkind, ih, hcons]
  have hextra : extra (ps.map (within owner)) keywords = extra ps keywords := by
    refine List.filter_congr fun e _ => congrArg Bool.not ?_
    rw [List.any_map, Bool.eq_iff_iff, List.any_eq_true, List.any_eq_true]
    refine exists_congr fun p => and_congr_right fun hp => ?_
    show (p.isNamed && Text.privateName owner p.name == e.1) = true ↔ (p.isNamed && p.name == e.1) = true
    by_cases hnamed : p.isNamed = true
    · rw [stable p hp hnamed]
    · simp [hnamed]
  have htable : (∃ p ∈ ps.map (within owner), p.kind = .varKeyword) ↔ ∃ p ∈ ps, p.kind = .varKeyword := by
    simp [within]
  rw [bind?_eq_ite, bind?_eq_ite, hextra, hfrom]
  simp only [htable]
  split <;> rfl

/-! ## Calls that fit -/

/-- How many arguments must be given by their places alone. -/
def places (ps : List Parameter) : Nat := (ps.filter fun p => p.kind == .positionalOnly && p.default.isNone).length

theorem places_congr (h : qs.map shape = ps.map shape) : places qs = places ps := by
  have hshapes : ∀ ps : List Parameter, places ps =
      ((ps.map shape).filter fun s => s.kind == .positionalOnly && !s.hasDefault).length := by
    intro ps
    rw [places, List.filter_map, List.length_map]
    congr 2
    funext p
    cases hdefault : p.default <;> simp [shape, hdefault]
  rw [hshapes, hshapes, h]

theorem places_within (owner : String) (ps : List Parameter) : places (ps.map (within owner)) = places ps := by
  rw [places, List.filter_map, List.length_map]
  rfl

theorem places_eq_zero (h : ∀ p ∈ ps, p.kind = .positionalOnly → p.default ≠ none) : places ps = 0 := by
  rw [places, List.length_eq_zero_iff, List.filter_eq_nil_iff]
  intro p hp
  simpa [Option.isNone_iff_eq_none] using h p hp

theorem places_cons_of_needed (hkind : p.kind = .positionalOnly) (hdefault : p.default = none) : places (p :: ps) = places ps + 1 := by
  rw [places, List.filter_cons_of_pos (by simp [hkind, hdefault]), List.length_cons, places]

theorem places_cons_of_ne (hkind : p.kind ≠ .positionalOnly) : places (p :: ps) = places ps := by
  rw [places, List.filter_cons_of_neg (by simp [hkind]), places]

/-- Behind a parameter for a place that may be left out, no other must be given by its place. -/
theorem places_of_optional (legal : ParamShape.IsLegal ((p :: ps).map shape)) (hkind : p.isPositional = true)
    (hplace : ¬(p.kind = .positionalOnly ∧ p.default = none)) : places ps = 0 ∧ places (p :: ps) = 0 := by
  have hrest : ∀ q ∈ ps, q.kind = .positionalOnly → q.default ≠ none := by
    intro q hq hqkind
    obtain ⟨hrank, -, hdefaults⟩ := (List.pairwise_cons.1 legal.ordered).1 q.shape (List.mem_map_of_mem hq)
    have hrank : p.kind.rank ≤ q.kind.rank := hrank
    rw [hqkind] at hrank
    have hpkind : p.kind = .positionalOnly := ParamKind.rank_injective (Nat.le_zero.1 hrank)
    have hdefault : p.default.isSome = true := Option.ne_none_iff_isSome.1 fun h => hplace ⟨hpkind, h⟩
    have hqdefault : q.default.isSome = true := hdefaults hkind (by rw [ParamShape.isPositional, shape, hqkind]; rfl) hdefault
    exact Option.ne_none_iff_isSome.2 hqdefault
  exact ⟨places_eq_zero hrest, places_eq_zero (List.forall_mem_cons.2 ⟨fun hpkind h => hplace ⟨hpkind, h⟩, hrest⟩)⟩

/-- Nor must any behind the one that takes surplus arguments. -/
theorem places_of_varPositional (legal : ParamShape.IsLegal ((p :: ps).map shape)) (hkind : p.kind = .varPositional) :
    places ps = 0 := by
  refine places_eq_zero fun q hq hqkind => ?_
  have hlate : 2 < q.kind.rank := legal.late_of_surplus hkind q.shape (List.mem_map_of_mem hq)
  rw [hqkind] at hlate
  exact absurd hlate (by decide)

/-- What has a default and is not given by its name gets the default. -/
def LeavesDefaults (keywords : Entries Value) (ps : List Parameter) (env : Entries Value) : Prop :=
  ∀ p ∈ ps, ∀ d, p.default = some d → (p.isNamed = true → p.name ∉ keywords.keys) → (p.name, d) ∈ env

theorem LeavesDefaults.cons {v : Value} {rest : Option (Entries Value)}
    (hrest : ∃ env, rest = some env ∧ LeavesDefaults keywords ps env)
    (hv : ∀ d, p.default = some d → (p.isNamed = true → p.name ∉ keywords.keys) → d = v) :
    ∃ env, rest.map ((p.name, v) :: ·) = some env ∧ LeavesDefaults keywords (p :: ps) env := by
  obtain ⟨env, rfl, henv⟩ := hrest
  refine ⟨_, rfl, List.forall_mem_cons.2 ⟨fun d hd hfree => ?_, fun q hq d hd hfree => ?_⟩⟩
  · rw [hv d hd hfree]
    exact List.mem_cons_self
  · exact List.mem_cons_of_mem _ (henv q hq d hd hfree)

/-- A parameter that is given by its name or has a default gets a value, the default only if it is not given. -/
theorem exists_value (hgets : p.isNamed = true ∨ p.default ≠ none)
    (hkeywords : p.isNamed = true → p.default = none → p.name ∈ keywords.keys) :
    ∃ v, (p.given? keywords <|> p.default) = some v ∧
      ∀ d, p.default = some d → (p.isNamed = true → p.name ∉ keywords.keys) → d = v := by
  cases hgiven : p.given? keywords with
  | some v =>
    refine ⟨v, rfl, fun d _ hfree => ?_⟩
    have hmeets := isSome_given?_iff.1 (Option.isSome_iff_exists.2 ⟨v, hgiven⟩)
    exact absurd hmeets.2 (hfree hmeets.1)
  | none =>
    cases hdefault : p.default with
    | some d => exact ⟨d, rfl, fun d' hd' _ => (Option.some.inj hd').symm⟩
    | none =>
      have hnamed : p.isNamed = true := hgets.resolve_right fun h => h hdefault
      have hmeets : (p.given? keywords).isSome = true := isSome_given?_iff.2 ⟨hnamed, hkeywords hnamed hdefault⟩
      rw [hgiven] at hmeets
      cases hmeets

/--
A call fits that gives no more than it must by places, and names all else that has no default. What has a default and is not
named gets the default.
-/
theorem exists_bindFrom (legal : ParamShape.IsLegal (ps.map shape)) (hargs : args.length = places ps)
    (hkeywords : ∀ p ∈ ps, p.isNamed = true → p.default = none → p.name ∈ keywords.keys) :
    ∃ env, bindFrom keywords surplus ps args = some env ∧ LeavesDefaults keywords ps env := by
  induction ps generalizing args with
  | nil =>
    obtain rfl := List.length_eq_zero_iff.1 hargs
    exact ⟨[], rfl, by simp [LeavesDefaults]⟩
  | cons p ps ih =>
    obtain ⟨hp, hps⟩ := List.forall_mem_cons.1 hkeywords
    have ih := fun args hargs => @ih args legal.tail hargs hps
    have hbare : p.kind.isVariadic = true → ∀ d, p.default ≠ some d := by
      intro hkind d hd
      have hdefault := legal.variadic p.shape List.mem_cons_self hkind
      rw [shape, hd] at hdefault
      cases hdefault
    obtain hkind | hkind | hkind | hkind := p.kind_cases
    · by_cases hplace : p.kind = .positionalOnly ∧ p.default = none
      · obtain ⟨hplace, hdefault⟩ := hplace
        have hsucc : args.length = places ps + 1 := hargs.trans (places_cons_of_needed hplace hdefault)
        obtain ⟨v, args, rfl⟩ := List.exists_cons_of_length_eq_add_one hsucc
        have hgiven : (p.given? keywords).isSome = false := by
          rw [given?, isNamed, hplace]
          rfl
        rw [bindFrom_place hkind, hgiven, if_neg Bool.false_ne_true]
        refine LeavesDefaults.cons (ih args (Nat.succ.inj hsucc)) fun d hd => ?_
        rw [hdefault] at hd
        cases hd
      · obtain ⟨hrest, hall⟩ := places_of_optional legal hkind hplace
        have hgets : p.isNamed = true ∨ p.default ≠ none := by
          rw [or_iff_not_imp_right, not_not]
          intro hdefault
          have hpkind : p.kind = .positionalOrKeyword := by
            simp only [isPositional, Bool.or_eq_true, beq_iff_eq] at hkind
            exact hkind.resolve_left fun h => hplace ⟨h, hdefault⟩
          rw [isNamed, hpkind]
          rfl
        obtain rfl := List.length_eq_zero_iff.1 (hargs.trans hall)
        obtain ⟨v, hv, hlast⟩ := exists_value hgets hp
        rw [bindFrom_name hkind, hv]
        exact LeavesDefaults.cons (ih [] hrest.symm) hlast
    · obtain ⟨v, hv, hlast⟩ := exists_value (Or.inl (by rw [isNamed, hkind]; rfl)) hp
      rw [bindFrom_keywordOnly hkind, hv]
      exact LeavesDefaults.cons (ih args (hargs.trans (places_cons_of_ne (by simp [hkind])))) hlast
    · have hrest := places_of_varPositional legal hkind
      obtain rfl := List.length_eq_zero_iff.1 (hargs.trans ((places_cons_of_ne (by simp [hkind])).trans hrest))
      rw [bindFrom_varPositional hkind]
      exact LeavesDefaults.cons (ih [] hrest.symm) fun d hd => absurd hd (hbare (by rw [hkind]; rfl) d)
    · rw [bindFrom_varKeyword hkind]
      exact LeavesDefaults.cons (ih args (hargs.trans (places_cons_of_ne (by simp [hkind]))))
        fun d hd => absurd hd (hbare (by rw [hkind]; rfl) d)

/-- So does a call of all parameters, of whose keywords none is unknown or there is a parameter for those. -/
theorem exists_bind? (args : List Value) (keywords : Entries Value) (legal : ParamShape.IsLegal (ps.map shape))
    (hargs : args.length = places ps)
    (hkeywords : ∀ p ∈ ps, p.isNamed = true → p.default = none → p.name ∈ keywords.keys)
    (hknown : (∃ p ∈ ps, p.kind = .varKeyword) ∨ ∀ name ∈ keywords.keys, ∃ p ∈ ps, p.isNamed = true ∧ p.name = name) :
    ∃ env, bind? ps args keywords = some env ∧ LeavesDefaults keywords ps env := by
  rw [bind?_eq_ite, if_pos ?_]
  · exact exists_bindFrom legal hargs hkeywords
  · refine hknown.symm.imp_left fun hnamed => List.filter_eq_nil_iff.2 fun e he => ?_
    obtain ⟨p, hp, hpnamed, hname⟩ := hnamed e.1 (List.mem_map_of_mem he)
    simpa using ⟨p, hp, hpnamed, hname⟩

/-- Values that are left to defaults tell the defaults: two lists of parameters that differ by the names a class makes have
the same, if their bindings do. -/
theorem map_default_of_leaves {owner : String} {env : Entries Value}
    (hshapes : qs.map shape = (ps.map (within owner)).map shape) (distinct : (bound owner env).keys.Nodup)
    (hleft : LeavesDefaults keywords ps env) (hleft' : LeavesDefaults keywords qs (bound owner env))
    (hfree : ∀ p ∈ ps, p.default ≠ none → p.isNamed = true → p.name ∉ keywords.keys)
    (hfree' : ∀ q ∈ qs, q.default ≠ none → q.isNamed = true → q.name ∉ keywords.keys) :
    qs.map default = ps.map default := by
  induction ps generalizing qs with
  | nil => rw [List.map_eq_nil_iff.1 hshapes]
  | cons p ps ih =>
    obtain ⟨q, qs, rfl, hq, hqs⟩ := List.map_eq_cons_iff.1 hshapes
    obtain ⟨hp, hps⟩ := List.forall_mem_cons.1 hleft
    obtain ⟨hq', hqs'⟩ := List.forall_mem_cons.1 hleft'
    obtain ⟨hpfree, hfree⟩ := List.forall_mem_cons.1 hfree
    obtain ⟨hqfree, hfree'⟩ := List.forall_mem_cons.1 hfree'
    have hname : q.name = Text.privateName owner p.name := congrArg ParamShape.name hq
    have hhas : q.default.isSome = p.default.isSome := congrArg ParamShape.hasDefault hq
    have hfirst : q.default = p.default := by
      cases hpd : p.default with
      | none => simpa [hpd] using hhas
      | some d =>
        obtain ⟨d', hqd⟩ := Option.isSome_iff_exists.1 (hhas.trans (congrArg Option.isSome hpd))
        have hd : (Text.privateName owner p.name, d) ∈ bound owner env :=
          List.mem_map_of_mem (hp d hpd (hpfree (by simp [hpd])))
        have hd' : (q.name, d') ∈ bound owner env := hq' d' hqd (hqfree (by simp [hqd]))
        rw [hname] at hd'
        rw [hqd, ← Entries.get?_of_mem distinct hd, Entries.get?_of_mem distinct hd']
    rw [List.map_cons, List.map_cons, hfirst, ih hqs hps hqs' hfree hfree']

end Parameter

end Amalgam
