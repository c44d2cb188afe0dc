import Amalgam.Proofs.Outcome
import Amalgam.Source.Compile
import Amalgam.Source.Private
import Amalgam.Source.Run
import Amalgam.World.Binding
import Mathlib.Data.List.Pairwise
import Mathlib.Data.List.Nodup

/-!
# Arguments are handed on unchanged

A generated method takes the parameters of its signature behind its receiver, and hands each of them on to its
contributors. What matters of a parameter is its shape. A legal signature gives a legal list of parameters of the same
shapes (`formalsOf_eq_ok`), and what a call binds to them can be handed on (`Handed`); the arguments handed on bind to the
signature again as the same values (`bind?_of_handed`).
-/

namespace Amalgam

/-- What a parameter list is judged by. -/
structure ParamShape where
  name : String
  kind : ParamKind
  hasDefault : Bool
  deriving DecidableEq, Repr

def Param.shape (p : Param) : ParamShape := ⟨p.name, p.kind, p.default.isSome⟩

def Parameter.shape (p : Parameter) : ParamShape := ⟨p.name, p.kind, p.default.isSome⟩

def Source.Formal.shape (f : Source.Formal) : ParamShape := ⟨f.name, f.kind, f.default.isSome⟩

/-- The place of a kind in a parameter list. -/
def ParamKind.rank : ParamKind → Nat
  | positionalOnly => 0
  | positionalOrKeyword => 1
  | varPositional => 2
  | keywordOnly => 3
  | varKeyword => 4

theorem ParamKind.rank_injective {k l : ParamKind} (h : k.rank = l.rank) : k = l := by
  cases k <;> cases l <;> first | rfl | cases h

/-- Whether parameters of a kind take any number of arguments. -/
def ParamKind.isVariadic (k : ParamKind) : Bool := k == .varPositional || k == .varKeyword

namespace ParamShape

/-- Whether a parameter takes one positional argument. -/
def isPositional (s : ParamShape) : Bool := s.kind == .positionalOnly || s.kind == .positionalOrKeyword

/-- Whether a parameter may be given by its name. -/
def isNamed (s : ParamShape) : Bool := s.kind == .positionalOrKeyword || s.kind == .keywordOnly

/-- Whether two parameters may stand in this order. -/
def Precedes (s t : ParamShape) : Prop :=
  s.kind.rank ≤ t.kind.rank ∧ (s.kind = t.kind → s.kind.isVariadic = false) ∧
    (s.isPositional = true → t.isPositional = true → s.hasDefault = true → t.hasDefault = true)

instance (s t : ParamShape) : Decidable (Precedes s t) := inferInstanceAs (Decidable (_ ∧ _ ∧ _))

/--
A parameter list that the language takes: the kinds in their order, at most one parameter each for surplus arguments and
surplus keywords and those without a default, no positional parameter without a default behind one with a default, and
no name twice.
-/
structure IsLegal (ss : List ParamShape) : Prop where
  ordered : ss.Pairwise Precedes
  variadic : ∀ s ∈ ss, s.kind.isVariadic = true → s.hasDefault = false
  distinct : (ss.map name).Nodup

instance (ss : List ParamShape) : Decidable (IsLegal ss) :=
  decidable_of_iff (ss.Pairwise Precedes ∧ (∀ s ∈ ss, s.kind.isVariadic = true → s.hasDefault = false) ∧
    (ss.map name).Nodup) ⟨fun ⟨h₁, h₂, h₃⟩ => ⟨h₁, h₂, h₃⟩, fun ⟨h₁, h₂, h₃⟩ => ⟨h₁, h₂, h₃⟩⟩

theorem IsLegal.tail {s : ParamShape} {ss : List ParamShape} (h : IsLegal (s :: ss)) : IsLegal ss :=
  ⟨(List.pairwise_cons.1 h.ordered).2, fun t ht => h.variadic t (List.mem_cons_of_mem _ ht),
    (List.nodup_cons.1 h.distinct).2⟩

end ParamShape

/-! ## The parameters of a method -/

namespace Source

variable {b : Blueprint} {function : Target}

theorem aliasOf_eq_ok {b : Blueprint} {path name : String} : aliasOf b path = .ok name ↔ b.aliases.get? path = some name := by
  unfold aliasOf
  cases b.aliases.get? path with
  | none => constructor <;> rintro ⟨⟩
  | some name' => constructor <;> rintro ⟨⟩ <;> rfl

theorem nodeName_eq_ok {name name' : String} (h : nodeName name = .ok name') : name' = name := by
  unfold nodeName at h
  split at h
  · cases h
    rfl
  · cases h

/-- The code of a class has the fields and the methods of its plan one by one, and its name. -/
theorem classOf_eq_ok {b : Blueprint} {k : Class} (h : classOf b = .ok k) : b.fields.mapM (fieldLine b) = .ok k.fields ∧
    b.methods.mapM (methodOf b) = .ok k.methods ∧ nodeName b.name = .ok k.name := by
  obtain ⟨bases, -, h⟩ := Outcome.bind_eq_ok.1 h
  obtain ⟨fields, hfields, h⟩ := Outcome.bind_eq_ok.1 h
  obtain ⟨methods, hmethods, h⟩ := Outcome.bind_eq_ok.1 h
  obtain ⟨name, hname, h⟩ := Outcome.bind_eq_ok.1 h
  cases h
  exact ⟨hfields, hmethods, hname⟩

theorem defaultOf_eq_ok {p : Param} {default : Option Default} (h : defaultOf b function p = .ok default) :
    default.isSome = p.default.isSome := by
  unfold defaultOf at h
  split at h
  · rename_i hnone
    cases h
    rw [hnone]
    rfl
  · rename_i text hsome
    rw [hsome]
    split at h
    · obtain ⟨_, _, h⟩ := Outcome.bind_eq_ok.1 h
      cases h
      rfl
    · obtain ⟨_, _, h⟩ := Outcome.bind_eq_ok.1 h
      obtain ⟨_, _, h⟩ := Outcome.bind_eq_ok.1 h
      cases h
      rfl

/-- A parameter keeps its shape, if it has no default where none may be. -/
theorem formalOf_shape {p : Param} {f : Formal} (hlegal : p.shape.kind.isVariadic = true → p.shape.hasDefault = false)
    (h : formalOf b function p = .ok f) : f.shape = p.shape := by
  obtain ⟨default, hdefault, h⟩ := Outcome.bind_eq_ok.1 h
  obtain ⟨name, hname, h⟩ := Outcome.bind_eq_ok.1 h
  cases h
  have hsome : default.isSome = p.default.isSome := by
    unfold defaultFor at hdefault
    split at hdefault
    · rename_i hkind
      cases hdefault
      exact (hlegal (by rw [Param.shape, hkind]; rfl)).symm
    · rename_i hkind
      cases hdefault
      exact (hlegal (by rw [Param.shape, hkind]; rfl)).symm
    · exact defaultOf_eq_ok hdefault
  rw [nodeName_eq_ok hname]
  show ParamShape.mk p.name p.kind default.isSome = _
  rw [hsome]
  rfl

/-! ### Sorting by kinds -/

theorem filter_kind_eq_nil {fs : List Formal} {kind : ParamKind} (h : ∀ g ∈ fs, g.kind ≠ kind) :
    fs.filter (fun g => g.kind == kind) = [] :=
  List.filter_eq_nil_iff.2 fun g hg => by simpa using h g hg

/-- A list in the order of its kinds is the list of its parts, kind by kind. -/
theorem sortFormals_eq_self {fs : List Formal} (h : (fs.map Formal.shape).Pairwise ParamShape.Precedes) :
    sortFormals fs = fs := by
  induction fs with
  | nil => rfl
  | cons f fs ih =>
    rw [List.map_cons, List.pairwise_cons] at h
    obtain ⟨hf, hfs⟩ := h
    have hbehind : ∀ g ∈ fs, f.kind.rank ≤ g.kind.rank ∧ (f.kind = g.kind → f.kind.isVariadic = false) := by
      intro g hg
      have := hf g.shape (List.mem_map_of_mem hg)
      exact ⟨this.1, this.2.1⟩
    have hbefore : ∀ kind : ParamKind, kind.rank < f.kind.rank → fs.filter (fun g => g.kind == kind) = [] := by
      intro kind hlt
      refine filter_kind_eq_nil fun g hg heq => ?_
      have := (hbehind g hg).1
      rw [heq] at this
      omega
    have honce : f.kind.isVariadic = true → fs.filter (fun g => g.kind == f.kind) = [] := by
      intro hvariadic
      refine filter_kind_eq_nil fun g hg heq => ?_
      rw [(hbehind g hg).2 heq.symm] at hvariadic
      cases hvariadic
    have ih := ih hfs
    unfold sortFormals at ih ⊢
    cases hkind : f.kind <;> rw [hkind] at hbefore honce
    · simp [hkind] at ih ⊢
      exact ih
    · simp [hkind, hbefore .positionalOnly (by decide)] at ih ⊢
      exact ih
    · simp [hkind, hbefore .positionalOnly (by decide), hbefore .positionalOrKeyword (by decide), honce rfl] at ih ⊢
      exact ih
    · simp [hkind, hbefore .positionalOnly (by decide), hbefore .positionalOrKeyword (by decide),
        hbefore .varPositional (by decide)] at ih ⊢
      exact ih
    · simp [hkind, hbefore .positionalOnly (by decide), hbefore .positionalOrKeyword (by decide),
        hbefore .varPositional (by decide), hbefore .keywordOnly (by decide), honce rfl] at ih ⊢
      exact ih

theorem drop_withReceiver (receiver : Option String) (fs : List Formal) :
    (withReceiver receiver fs).drop receiver.toList.length = fs := by
  cases receiver <;> rfl

theorem defaultsLast_of_isLegal {fs : List Formal} (h : (fs.map Formal.shape).Pairwise ParamShape.Precedes) {seen : Bool}
    (hseen : seen = true → ∀ f ∈ fs, f.isPositional = true → f.default.isSome = true) : defaultsLast seen fs = true := by
  induction fs generalizing seen with
  | nil => rfl
  | cons f fs ih =>
    rw [List.map_cons, List.pairwise_cons] at h
    obtain ⟨hf, hfs⟩ := h
    unfold defaultsLast
    by_cases hpos : f.isPositional = true
    · rw [hpos, Bool.not_true, if_neg (by decide)]
      by_cases hdefault : f.default.isSome = true
      · rw [if_pos hdefault]
        refine ih hfs fun _ g hg hgpos => ?_
        exact (hf g.shape (List.mem_map_of_mem hg)).2.2 hpos hgpos hdefault
      · rw [if_neg hdefault]
        cases seen with
        | true => exact absurd (hseen rfl f List.mem_cons_self hpos) hdefault
        | false => exact ih hfs (by rintro ⟨⟩)
    · rw [if_pos (by simpa using hpos)]
      exact ih hfs fun hs g hg => hseen hs g (List.mem_cons_of_mem _ hg)

/-- A receiver without a default may stand in front of any legal list. -/
theorem isLegal_withReceiver {receiver : Option String} {fs : List Formal}
    (legal : ParamShape.IsLegal (fs.map Formal.shape)) (apart : ∀ r ∈ receiver, r ∉ fs.map Formal.name) :
    ParamShape.IsLegal ((withReceiver receiver fs).map Formal.shape) := by
  cases receiver with
  | none => exact legal
  | some name =>
    have hnames : (fs.map Formal.shape).map ParamShape.name = fs.map Formal.name := by
      rw [List.map_map]
      rfl
    refine ⟨List.pairwise_cons.2 ⟨?_, legal.ordered⟩, ?_, ?_⟩
    · intro s hs
      obtain ⟨f, hf, rfl⟩ := List.mem_map.1 hs
      refine ⟨?_, ?_, fun _ _ h => by cases h⟩
      · show ParamKind.rank (if _ then _ else _) ≤ f.kind.rank
        split
        · exact Nat.zero_le _
        · rename_i hnone
          cases hkind : f.kind with
          | positionalOnly => exact absurd (List.any_eq_true.2 ⟨f, hf, by rw [hkind]; rfl⟩) hnone
          | positionalOrKeyword => decide
          | varPositional => decide
          | keywordOnly => decide
          | varKeyword => decide
      · intro _
        show ParamKind.isVariadic (if _ then _ else _) = false
        split <;> rfl
    · intro s hs hvariadic
      rcases List.mem_cons.1 hs with rfl | hs
      · rfl
      · exact legal.variadic s hs hvariadic
    · refine List.nodup_cons.2 ⟨?_, legal.distinct⟩
      rw [hnames]
      exact apart name rfl

theorem formals_shapes {ps : List Param} {fs : List Formal}
    (hlegal : ∀ s ∈ ps.map Param.shape, s.kind.isVariadic = true → s.hasDefault = false)
    (h : ps.mapM (formalOf b function) = .ok fs) : fs.map Formal.shape = ps.map Param.shape :=
  Outcome.map_eq_of_mapM h fun p hp _ hf => formalOf_shape (hlegal p.shape (List.mem_map_of_mem hp)) hf

theorem defaultsLast_withReceiver {receiver : Option String} {fs : List Formal}
    (h : (fs.map Formal.shape).Pairwise ParamShape.Precedes) : defaultsLast false (withReceiver receiver fs) = true := by
  have hplain : defaultsLast false fs = true := defaultsLast_of_isLegal h (by rintro ⟨⟩)
  cases receiver with
  | none => exact hplain
  | some name =>
    unfold withReceiver defaultsLast
    split
    · exact hplain
    · exact hplain

/-- A method of a legal signature has parameters as soon as each of them can be written. -/
theorem formalsOf_eq_ok {m : MethodDef} {receiver : Option String} {formals : List Formal}
    (legal : ParamShape.IsLegal (m.signature.params.map Param.shape)) :
    formalsOf b m receiver = .ok formals ↔ ∃ reference fs, aliasOf b m.reference = .ok reference ∧
      m.signature.params.mapM (formalOf b (implementation reference m.signature.kind m.name)) = .ok fs ∧
      fs.map Formal.shape = m.signature.params.map Param.shape ∧ formals = withReceiver receiver fs := by
  have hsorted : ∀ {fs : List Formal}, fs.map Formal.shape = m.signature.params.map Param.shape →
      sortFormals fs = fs ∧ defaultsLast false (withReceiver receiver fs) = true := by
    intro fs hfs
    have hordered := legal.ordered
    rw [← hfs] at hordered
    exact ⟨sortFormals_eq_self hordered, defaultsLast_withReceiver hordered⟩
  unfold formalsOf
  constructor
  · intro h
    obtain ⟨reference, href, h⟩ := Outcome.bind_eq_ok.1 h
    obtain ⟨fs, hfs, h⟩ := Outcome.bind_eq_ok.1 h
    have hshapes := formals_shapes legal.variadic hfs
    obtain ⟨hsort, hlast⟩ := hsorted hshapes
    rw [hsort] at h
    have h := (if_pos hlast).symm.trans h
    cases h
    exact ⟨reference, fs, href, hfs, hshapes, rfl⟩
  · rintro ⟨reference, fs, href, hfs, hshapes, rfl⟩
    obtain ⟨hsort, hlast⟩ := hsorted hshapes
    refine Outcome.bind_eq_ok.2 ⟨reference, href, Outcome.bind_eq_ok.2 ⟨fs, hfs, ?_⟩⟩
    rw [hsort]
    exact if_pos hlast

end Source

/-! ## The values that parameters are handed on as -/

/--
The arguments that bound parameters are handed on as, positional ones and keywords; `extra` is what the parameter for
surplus keywords is bound to.
-/
inductive Handed (extra : Entries Value) : List ParamShape → Entries Value → List Value → Entries Value → Prop where
  | nil : Handed extra [] [] [] []
  | positional {s : ParamShape} {v : Value} {ss env vs ks} (hs : s.isPositional = true) (rest : Handed extra ss env vs ks) :
    Handed extra (s :: ss) ((s.name, v) :: env) (v :: vs) ks
  | surplus {s : ParamShape} {ws : List Value} {ss env vs ks} (hs : s.kind = .varPositional)
    (rest : Handed extra ss env vs ks) : Handed extra (s :: ss) ((s.name, .tuple ws) :: env) (ws ++ vs) ks
  | keyword {s : ParamShape} {v : Value} {ss env vs ks} (hs : s.kind = .keywordOnly) (rest : Handed extra ss env vs ks) :
    Handed extra (s :: ss) ((s.name, v) :: env) vs ((s.name, v) :: ks)
  | table {s : ParamShape} {ss env vs ks} (hs : s.kind = .varKeyword) (rest : Handed extra ss env vs ks) :
    Handed extra (s :: ss) ((s.name, Parameter.tableOf extra) :: env) vs (extra ++ ks)

namespace Parameter

/-- A positional parameter takes a value, and the others what is left. -/
theorem bindFrom_positional {keywords extra : Entries Value} {p : Parameter} {ps : List Parameter}
    {positional : List Value} {env : Entries Value} (hp : p.shape.isPositional = true)
    (h : bindFrom keywords extra (p :: ps) positional = some env) :
    ∃ v rest env', env = (p.name, v) :: env' ∧ bindFrom keywords extra ps rest = some env' := by
  cases positional with
  | nil =>
    rw [bindFrom_name hp] at h
    obtain ⟨v, -, h⟩ := Option.bind_eq_some_iff.1 h
    obtain ⟨env', henv, rfl⟩ := Option.map_eq_some_iff.1 h
    exact ⟨v, [], env', rfl, henv⟩
  | cons v rest =>
    rw [bindFrom_place hp] at h
    split at h
    · cases h
    · obtain ⟨env', henv, rfl⟩ := Option.map_eq_some_iff.1 h
      exact ⟨v, rest, env', rfl, henv⟩

/-- What a call binds can be handed on. -/
theorem exists_handed {keywords extra : Entries Value} {ps : List Parameter} {positional : List Value}
    {env : Entries Value} (h : bindFrom keywords extra ps positional = some env) :
    ∃ vs ks, Handed extra (ps.map shape) env vs ks := by
  induction ps generalizing positional env with
  | nil =>
    cases positional with
    | nil =>
      cases h
      exact ⟨[], [], .nil⟩
    | cons => cases h
  | cons p ps ih =>
    obtain hkind | hkind | hkind | hkind := p.kind_cases
    · obtain ⟨v, rest, env, rfl, henv⟩ := bindFrom_positional hkind h
      obtain ⟨vs, ks, hrest⟩ := ih henv
      exact ⟨v :: vs, ks, .positional hkind hrest⟩
    · rw [bindFrom_keywordOnly hkind] at h
      obtain ⟨v, -, h⟩ := Option.bind_eq_some_iff.1 h
      obtain ⟨env, henv, rfl⟩ := Option.map_eq_some_iff.1 h
      obtain ⟨vs, ks, hrest⟩ := ih henv
      exact ⟨vs, (p.name, v) :: ks, .keyword hkind hrest⟩
    · rw [bindFrom_varPositional hkind] at h
      obtain ⟨env, henv, rfl⟩ := Option.map_eq_some_iff.1 h
      obtain ⟨vs, ks, hrest⟩ := ih henv
      exact ⟨positional ++ vs, ks, .surplus hkind hrest⟩
    · rw [bindFrom_varKeyword hkind] at h
      obtain ⟨env, henv, rfl⟩ := Option.map_eq_some_iff.1 h
      obtain ⟨vs, ks, hrest⟩ := ih henv
      exact ⟨vs, extra ++ ks, .table hkind hrest⟩

end Parameter

namespace Handed

variable {extra : Entries Value} {ss : List ParamShape} {env : Entries Value} {vs : List Value} {ks : Entries Value}

theorem keys_env (h : Handed extra ss env vs ks) : env.keys = ss.map ParamShape.name := by
  induction h with
  | nil => rfl
  | positional _ _ ih => exact congrArg _ ih
  | surplus _ _ ih => exact congrArg _ ih
  | keyword _ _ ih => exact congrArg _ ih
  | table _ _ ih => exact congrArg _ ih

/-- A keyword handed on is a parameter that only goes by its name, or a surplus keyword. -/
theorem mem_keywords (h : Handed extra ss env vs ks) {e : String × Value} (he : e ∈ ks) :
    ∃ s ∈ ss, s.kind = .keywordOnly ∧ s.name = e.1 ∨ s.kind = .varKeyword ∧ e ∈ extra := by
  induction h with
  | nil => cases he
  | positional _ _ ih =>
    obtain ⟨t, ht, h⟩ := ih he
    exact ⟨t, List.mem_cons_of_mem _ ht, h⟩
  | surplus _ _ ih =>
    obtain ⟨t, ht, h⟩ := ih he
    exact ⟨t, List.mem_cons_of_mem _ ht, h⟩
  | @keyword s v ss env vs ks hs _ ih =>
    rcases List.mem_cons.1 he with rfl | he
    · exact ⟨s, List.mem_cons_self, Or.inl ⟨hs, rfl⟩⟩
    · obtain ⟨t, ht, h⟩ := ih he
      exact ⟨t, List.mem_cons_of_mem _ ht, h⟩
  | @table s ss env vs ks hs _ ih =>
    rcases List.mem_append.1 he with he | he
    · exact ⟨s, List.mem_cons_self, Or.inr ⟨hs, he⟩⟩
    · obtain ⟨t, ht, h⟩ := ih he
      exact ⟨t, List.mem_cons_of_mem _ ht, h⟩

/-- Behind the parameter for surplus arguments nothing positional is handed on. -/
theorem positionals_eq_nil (h : Handed extra ss env vs ks) (hlate : ∀ s ∈ ss, 2 < s.kind.rank) : vs = [] := by
  induction h with
  | nil => rfl
  | @positional s v ss env vs ks hs _ _ =>
    have := hlate s List.mem_cons_self
    cases hkind : s.kind <;> simp [ParamShape.isPositional, hkind, ParamKind.rank] at hs this
  | @surplus s ws ss env vs ks hs _ _ =>
    have := hlate s List.mem_cons_self
    rw [hs] at this
    exact absurd this (by decide)
  | keyword _ _ ih => exact ih fun t ht => hlate t (List.mem_cons_of_mem _ ht)
  | table _ _ ih => exact ih fun t ht => hlate t (List.mem_cons_of_mem _ ht)

end Handed

namespace ParamShape

theorem IsLegal.late_of_surplus {s : ParamShape} {ss : List ParamShape} (h : IsLegal (s :: ss))
    (hs : s.kind = .varPositional) : ∀ t ∈ ss, 2 < t.kind.rank := by
  intro t ht
  obtain ⟨hrank, honce, -⟩ := (List.pairwise_cons.1 h.ordered).1 t ht
  have hne : s.kind.rank ≠ t.kind.rank := by
    intro heq
    have hvariadic := honce (ParamKind.rank_injective heq)
    rw [hs] at hvariadic
    cases hvariadic
  rw [hs] at hrank hne
  exact Nat.lt_of_le_of_ne hrank hne

theorem IsLegal.nil_of_table {s : ParamShape} {ss : List ParamShape} (h : IsLegal (s :: ss))
    (hs : s.kind = .varKeyword) : ss = [] := by
  cases ss with
  | nil => rfl
  | cons t ss =>
    obtain ⟨hrank, honce, -⟩ := (List.pairwise_cons.1 h.ordered).1 t List.mem_cons_self
    rw [hs] at hrank honce
    cases hkind : t.kind <;> rw [hkind] at hrank honce
    · exact absurd hrank (by decide)
    · exact absurd hrank (by decide)
    · exact absurd hrank (by decide)
    · exact absurd hrank (by decide)
    · exact absurd (honce rfl) (by decide)

end ParamShape

namespace Handed

variable {extra : Entries Value} {ss : List ParamShape} {env : Entries Value} {vs : List Value} {ks : Entries Value}

theorem keywords_eq_nil (h : Handed extra [] env vs ks) : ks = [] := by
  cases h
  rfl

/-- No keyword is handed on twice, if none of the surplus ones names a parameter. -/
theorem nodup_keywords (h : Handed extra ss env vs ks) (legal : ParamShape.IsLegal ss) (hextra : extra.keys.Nodup)
    (hfree : ∀ s ∈ ss, s.isNamed = true → s.name ∉ extra.keys) : ks.keys.Nodup := by
  induction h with
  | nil => exact List.nodup_nil
  | positional _ _ ih => exact ih legal.tail fun t ht => hfree t (List.mem_cons_of_mem _ ht)
  | surplus _ _ ih => exact ih legal.tail fun t ht => hfree t (List.mem_cons_of_mem _ ht)
  | @keyword s v ss env vs ks hs rest ih =>
    refine List.nodup_cons.2 ⟨?_, ih legal.tail fun t ht => hfree t (List.mem_cons_of_mem _ ht)⟩
    intro hkey
    obtain ⟨e, he, heq⟩ := List.mem_map.1 hkey
    obtain ⟨t, ht, ⟨-, hname⟩ | ⟨-, hmem⟩⟩ := rest.mem_keywords he
    · exact (List.nodup_cons.1 legal.distinct).1 (List.mem_map.2 ⟨t, ht, hname.trans heq⟩)
    · have hnamed : s.isNamed = true := by
        rw [ParamShape.isNamed, hs]
        rfl
      exact hfree s List.mem_cons_self hnamed (List.mem_map.2 ⟨e, hmem, heq⟩)
  | @table s ss env vs ks hs rest _ =>
    have hnil := legal.nil_of_table hs
    subst hnil
    rw [rest.keywords_eq_nil, List.append_nil]
    exact hextra

/-- Handed on to the same parameters, the arguments are bound to the same values: defaults play no part. -/
theorem bindFrom_eq (h : Handed extra ss env vs ks) (legal : ParamShape.IsLegal ss) {qs : List Parameter}
    (hq : qs.map Parameter.shape = ss) {keywords : Entries Value} (distinct : keywords.keys.Nodup)
    (hsub : ks ⊆ keywords) (hfree : ∀ s ∈ ss, s.isPositional = true → s.isNamed = true → s.name ∉ keywords.keys) :
    Parameter.bindFrom keywords extra qs vs = some env := by
  induction h generalizing qs with
  | nil =>
    rw [List.map_eq_nil_iff] at hq
    rw [hq]
    rfl
  | @positional s v ss env vs ks hs _ ih =>
    obtain ⟨q, qs, rfl, hq, hqs⟩ := List.map_eq_cons_iff.1 hq
    subst hq
    have hrest := ih legal.tail hqs hsub fun t ht => hfree t (List.mem_cons_of_mem _ ht)
    have hgiven : ¬(q.given? keywords).isSome = true := by
      rw [Parameter.isSome_given?_iff]
      exact fun h => hfree _ List.mem_cons_self hs h.1 h.2
    rw [Parameter.bindFrom_place hs, if_neg hgiven, hrest]
    rfl
  | @surplus s ws ss env vs ks hs rest ih =>
    obtain ⟨q, qs, rfl, hq, hqs⟩ := List.map_eq_cons_iff.1 hq
    subst hq
    have hnil := rest.positionals_eq_nil (legal.late_of_surplus hs)
    subst hnil
    have hrest := ih legal.tail hqs hsub fun t ht => hfree t (List.mem_cons_of_mem _ ht)
    rw [Parameter.bindFrom_varPositional hs, List.append_nil, hrest]
    rfl
  | @keyword s v ss env vs ks hs _ ih =>
    obtain ⟨q, qs, rfl, hq, hqs⟩ := List.map_eq_cons_iff.1 hq
    subst hq
    obtain ⟨hmem, hsub⟩ := List.cons_subset.1 hsub
    have hrest := ih legal.tail hqs hsub fun t ht => hfree t (List.mem_cons_of_mem _ ht)
    have hkind : q.kind = .keywordOnly := hs
    have hgiven : keywords.get? q.name = some v := Entries.get?_of_mem distinct hmem
    rw [Parameter.bindFrom_keywordOnly hkind, Parameter.given?, Parameter.isNamed, hkind, if_pos (by decide), hgiven, hrest]
    rfl
  | @table s ss env vs ks hs _ ih =>
    obtain ⟨q, qs, rfl, hq, hqs⟩ := List.map_eq_cons_iff.1 hq
    subst hq
    have hrest := ih legal.tail hqs (fun e he => hsub (List.mem_append_right _ he))
      fun t ht => hfree t (List.mem_cons_of_mem _ ht)
    rw [Parameter.bindFrom_varKeyword hs, hrest]
    rfl

/-- The keywords that name no parameter are the surplus ones again. -/
theorem filter_keywords (h : Handed extra ss env vs ks) (legal : ParamShape.IsLegal ss) (named : String → Bool)
    (hnamed : ∀ s ∈ ss, s.kind = .keywordOnly → named s.name = true) (hextra : ∀ e ∈ extra, named e.1 = false) :
    ks.filter (fun e => !named e.1) = if ss.any fun s => s.kind == .varKeyword then extra else [] := by
  induction h with
  | nil => rfl
  | @positional s v ss env vs ks hs _ ih =>
    have hkind : (s.kind == .varKeyword) = false := by
      cases hkind : s.kind <;> simp [ParamShape.isPositional, hkind] at hs ⊢
    rw [List.any_cons, hkind, Bool.false_or]
    exact ih legal.tail fun t ht => hnamed t (List.mem_cons_of_mem _ ht)
  | @surplus s ws ss env vs ks hs _ ih =>
    rw [List.any_cons, hs]
    exact ih legal.tail fun t ht => hnamed t (List.mem_cons_of_mem _ ht)
  | @keyword s v ss env vs ks hs _ ih =>
    rw [List.any_cons, List.filter_cons_of_neg (by simp [hnamed s List.mem_cons_self hs]), hs]
    exact ih legal.tail fun t ht => hnamed t (List.mem_cons_of_mem _ ht)
  | @table s ss env vs ks hs rest _ =>
    have hnil := legal.nil_of_table hs
    subst hnil
    rw [rest.keywords_eq_nil, List.append_nil, List.any_cons, hs]
    exact List.filter_eq_self.2 fun e he => by simp [hextra e he]

end Handed

/-! ## Evaluating the arguments -/

namespace Source

theorem addKeywords_eq_some {ks : Entries Value} {done : Entries Value} (h : (done ++ ks).keys.Nodup) :
    addKeywords done (ks.map fun e => (.str e.1, e.2)) = some (done ++ ks) := by
  induction ks generalizing done with
  | nil => rw [List.map_nil, addKeywords, List.append_nil]
  | cons e ks ih =>
    obtain ⟨k, v⟩ := e
    have hassoc : done ++ (k, v) :: ks = done ++ [(k, v)] ++ ks := by
      rw [List.append_assoc]
      rfl
    have hk : k ∉ done.keys := by
      intro hmem
      rw [Entries.keys, List.map_append] at h
      exact (List.nodup_append.1 h).2.2 k hmem k List.mem_cons_self rfl
    rw [List.map_cons, addKeywords, if_neg fun hhas => hk ((Entries.has_iff_mem_keys _ _).1 hhas),
      Entries.put_of_not_mem hk, hassoc]
    rw [hassoc] at h
    exact ih h

theorem lookUp_eq_pure {m : Type → Type} [Monad m] {s : Surroundings m} {locals : Entries Value} {name : String} {v : Value}
    (h : locals.get? name = some v) : lookUp s locals name = pure v := by
  unfold lookUp
  rw [h]

variable {m : Type → Type} [Monad m] [LawfulMonad m] {extra : Entries Value} {ss : List ParamShape}
  {env : Entries Value} {vs : List Value} {ks : Entries Value}

section One

variable {p : Param} {owner : String} {locals : Entries Value} {vs' : List Value} {ks' : Entries Value}

/-- A parameter that may go by its place is handed on by it. -/
theorem evalArgs_positional (s : Surroundings m) {v : Value} (hp : p.shape.isPositional = true)
    (hv : locals.get? (Text.privateName owner p.name) = some v) (args : List Arg) :
    evalArgs s locals vs' ks' ((forward p).within owner :: args) = evalArgs s locals (vs' ++ [v]) ks' args := by
  have hforward : (forward p).within owner = .name (Text.privateName owner p.name) := by
    have hkind : p.kind = .positionalOnly ∨ p.kind = .positionalOrKeyword := by
      simpa [ParamShape.isPositional, Param.shape] using hp
    unfold forward
    rcases hkind with hkind | hkind <;> rw [hkind] <;> rfl
  rw [hforward, evalArgs, lookUp_eq_pure hv, pure_bind]

/-- Surplus values are handed on by their places. -/
theorem evalArgs_surplus (s : Surroundings m) {ws : List Value} (hp : p.kind = .varPositional)
    (hv : locals.get? (Text.privateName owner p.name) = some (.tuple ws)) (args : List Arg) :
    evalArgs s locals vs' ks' ((forward p).within owner :: args) = evalArgs s locals (vs' ++ ws) ks' args := by
  have hforward : (forward p).within owner = .spread (Text.privateName owner p.name) := by
    unfold forward
    rw [hp]
    rfl
  rw [hforward, evalArgs, lookUp_eq_pure hv, pure_bind]
  rfl

/-- A parameter that only goes by its name is handed on by the name that its signature has. -/
theorem evalArgs_keyword (s : Surroundings m) {v : Value} (hp : p.kind = .keywordOnly)
    (hv : locals.get? (Text.privateName owner p.name) = some v) (args : List Arg) :
    evalArgs s locals vs' ks' ((forward p).within owner :: args) =
      (addKeywords ks' ([(p.name, v)].map fun e => (.str e.1, e.2))).elim (pure none) fun ks => evalArgs s locals vs' ks args := by
  have hforward : (forward p).within owner = .named p.name (Text.privateName owner p.name) := by
    unfold forward
    rw [hp]
    rfl
  rw [hforward, evalArgs, lookUp_eq_pure hv, pure_bind, List.map_singleton]
  cases addKeywords ks' [(.str p.name, v)] <;> rfl

/-- Surplus keywords are handed on by their names. -/
theorem evalArgs_table (s : Surroundings m) (hp : p.kind = .varKeyword)
    (hv : locals.get? (Text.privateName owner p.name) = some (Parameter.tableOf extra)) (args : List Arg) :
    evalArgs s locals vs' ks' ((forward p).within owner :: args) =
      (addKeywords ks' (extra.map fun e => (.str e.1, e.2))).elim (pure none) fun ks => evalArgs s locals vs' ks args := by
  have hforward : (forward p).within owner = .spreadNamed (Text.privateName owner p.name) := by
    unfold forward
    rw [hp]
    rfl
  have hentries : (spreadEntries (Parameter.tableOf extra)).bind (addKeywords ks') =
      addKeywords ks' (extra.map fun e => (.str e.1, e.2)) := rfl
  rw [hforward, evalArgs, lookUp_eq_pure hv, pure_bind, hentries]
  cases addKeywords ks' (extra.map fun e => (.str e.1, e.2)) <;> rfl

end One

theorem nodup_keys_front {done ks more : Entries Value} (h : (done ++ (ks ++ more)).keys.Nodup) : (done ++ ks).keys.Nodup := by
  rw [← List.append_assoc, Entries.keys, List.map_append] at h
  exact (List.nodup_append.1 h).1

/--
Whatever the surroundings, the arguments of a body are the values of its parameters as they are handed on, even if the
class that the body stands in renames the parameters.
-/
theorem evalArgs_forward (s : Surroundings m) (owner : String) {locals : Entries Value} (h : Handed extra ss env vs ks)
    {ps : List Param} (hp : ps.map Param.shape = ss)
    (hlocals : ∀ e ∈ env, locals.get? (Text.privateName owner e.1) = some e.2) {vs' : List Value} {ks' : Entries Value}
    (hks : (ks' ++ ks).keys.Nodup) :
    evalArgs s locals vs' ks' (ps.map fun p => (forward p).within owner) = pure (some (vs' ++ vs, ks' ++ ks)) := by
  induction h generalizing ps vs' ks' with
  | nil =>
    rw [List.map_eq_nil_iff] at hp
    rw [hp, List.map_nil, evalArgs, List.append_nil, List.append_nil]
  | @positional t v ss env vs ks ht _ ih =>
    obtain ⟨p, ps, rfl, rfl, hps⟩ := List.map_eq_cons_iff.1 hp
    rw [List.map_cons, evalArgs_positional s ht (hlocals (p.name, v) List.mem_cons_self),
      ih hps (fun e he => hlocals e (List.mem_cons_of_mem _ he)) hks, List.append_assoc]
    rfl
  | @surplus t ws ss env vs ks ht _ ih =>
    obtain ⟨p, ps, rfl, rfl, hps⟩ := List.map_eq_cons_iff.1 hp
    rw [List.map_cons, evalArgs_surplus s ht (hlocals (p.name, .tuple ws) List.mem_cons_self),
      ih hps (fun e he => hlocals e (List.mem_cons_of_mem _ he)) hks, List.append_assoc]
  | @keyword t v ss env vs ks ht _ ih =>
    obtain ⟨p, ps, rfl, rfl, hps⟩ := List.map_eq_cons_iff.1 hp
    have hks : (ks' ++ ([(p.name, v)] ++ ks)).keys.Nodup := hks
    rw [List.map_cons, evalArgs_keyword s ht (hlocals (p.name, v) List.mem_cons_self),
      addKeywords_eq_some (nodup_keys_front hks), Option.elim_some,
      ih hps (fun e he => hlocals e (List.mem_cons_of_mem _ he)) (by rwa [List.append_assoc]), List.append_assoc]
    rfl
  | @table t ss env vs ks ht _ ih =>
    obtain ⟨p, ps, rfl, rfl, hps⟩ := List.map_eq_cons_iff.1 hp
    rw [List.map_cons, evalArgs_table s ht (hlocals (p.name, Parameter.tableOf extra) List.mem_cons_self),
      addKeywords_eq_some (nodup_keys_front hks), Option.elim_some,
      ih hps (fun e he => hlocals e (List.mem_cons_of_mem _ he)) (by rwa [List.append_assoc]), List.append_assoc]

/-- Outside of any class, names are what they are. -/
theorem privateName_empty (name : String) : Text.privateName "" name = name := by
  unfold Text.privateName
  exact if_neg (by simp)

theorem Arg.within_empty (a : Arg) : a.within "" = a := by
  cases a <;> simp [within, privateName_empty]

end Source

/-! ## Binding again -/

namespace Parameter

theorem extra_eq (ps : List Parameter) (keywords : Entries Value) :
    extra ps keywords = keywords.filter fun e => !(ps.map shape).any fun s => s.isNamed && s.name == e.1 := by
  unfold extra
  simp only [List.any_map]
  rfl

/-- A call that binds gives every parameter something to hand on; what is surplus names no parameter. -/
theorem bind?_eq_some {ps : List Parameter} {positional : List Value} {keywords env : Entries Value}
    (h : bind? ps positional keywords = some env) :
    bindFrom keywords (extra ps keywords) ps positional = some env ∧
      (extra ps keywords = [] ∨ ∃ s ∈ ps.map shape, s.kind = .varKeyword) := by
  unfold bind? at h
  by_cases hrefused : (!(extra ps keywords).isEmpty && !ps.any fun p => p.kind == .varKeyword) = true
  · have h := (if_pos hrefused).symm.trans h
    cases h
  · have h := (if_neg hrefused).symm.trans h
    refine ⟨h, ?_⟩
    simp only [Bool.and_eq_true, Bool.not_eq_true', not_and, Bool.not_eq_false] at hrefused
    cases hempty : (extra ps keywords).isEmpty with
    | true => exact Or.inl (List.isEmpty_iff.1 hempty)
    | false =>
      obtain ⟨p, hp, hkind⟩ := List.any_eq_true.1 (hrefused hempty)
      exact Or.inr ⟨p.shape, List.mem_map_of_mem hp, eq_of_beq hkind⟩

theorem name_not_mem_extra {ps : List Parameter} {keywords : Entries Value} {s : ParamShape} (hs : s ∈ ps.map shape)
    (hnamed : s.isNamed = true) : s.name ∉ (extra ps keywords).keys := by
  intro hkey
  obtain ⟨e, he, heq⟩ := List.mem_map.1 hkey
  rw [extra_eq] at he
  have hfree := (List.mem_filter.1 he).2
  rw [Bool.not_eq_true', ← Bool.not_eq_true, List.any_eq_true] at hfree
  exact hfree ⟨s, hs, by rw [hnamed, heq]; simp⟩

theorem nodup_keys_extra {ps : List Parameter} {keywords : Entries Value} (h : keywords.keys.Nodup) :
    (extra ps keywords).keys.Nodup :=
  h.sublist (List.filter_sublist.map Prod.fst)

/-- What is handed on binds to parameters of the same shapes as the same values. -/
theorem bind?_of_handed {extra : Entries Value} {ss : List ParamShape} {env : Entries Value} {vs : List Value}
    {ks : Entries Value} (h : Handed extra ss env vs ks) (legal : ParamShape.IsLegal ss) (hextra : extra.keys.Nodup)
    (hfree : ∀ s ∈ ss, s.isNamed = true → s.name ∉ extra.keys)
    (hsurplus : extra = [] ∨ ∃ s ∈ ss, s.kind = .varKeyword) {qs : List Parameter} (hq : qs.map shape = ss) :
    bind? qs vs ks = some env := by
  have hkeywordOnly : ∀ s ∈ ss, s.kind = .keywordOnly → (ss.any fun t => t.isNamed && t.name == s.name) = true := by
    intro s hs hkind
    refine List.any_eq_true.2 ⟨s, hs, ?_⟩
    rw [ParamShape.isNamed, hkind]
    simp
  have hnamed : ∀ e ∈ extra, (ss.any fun t => t.isNamed && t.name == e.1) = false := by
    intro e he
    rw [← Bool.not_eq_true, List.any_eq_true]
    rintro ⟨t, ht, hte⟩
    rw [Bool.and_eq_true, beq_iff_eq] at hte
    exact hfree t ht hte.1 (List.mem_map.2 ⟨e, he, hte.2.symm⟩)
  have hany : (ss.any fun s => s.kind == .varKeyword) = true ∨ extra = [] := by
    rcases hsurplus with hnil | ⟨s, hs, hkind⟩
    · exact Or.inr hnil
    · exact Or.inl (List.any_eq_true.2 ⟨s, hs, by rw [hkind]; rfl⟩)
  have hsame : Parameter.extra qs ks = extra := by
    rw [extra_eq, hq, h.filter_keywords legal (fun name => ss.any fun s => s.isNamed && s.name == name) hkeywordOnly hnamed]
    rcases hany with hany | hnil
    · rw [if_pos hany]
    · rw [hnil, ite_self]
  have hpositional : ∀ s ∈ ss, s.isPositional = true → s.isNamed = true → s.name ∉ ks.keys := by
    intro s hs hpos hnamed hkey
    obtain ⟨e, he, heq⟩ := List.mem_map.1 hkey
    obtain ⟨t, ht, ⟨hkind, hname⟩ | ⟨-, hmem⟩⟩ := h.mem_keywords he
    · have : s = t := List.inj_on_of_nodup_map legal.distinct hs ht (heq.symm.trans hname.symm)
      rw [this, ParamShape.isPositional, hkind] at hpos
      exact absurd hpos (by decide)
    · exact hfree s hs hnamed (List.mem_map.2 ⟨e, hmem, heq⟩)
  have hbind := h.bindFrom_eq legal hq (h.nodup_keywords legal hextra hfree) (List.Subset.refl ks) hpositional
  unfold bind?
  rw [hsame]
  refine (if_neg ?_).trans hbind
  intro hrefused
  rw [Bool.and_eq_true, Bool.not_eq_true', Bool.not_eq_true'] at hrefused
  rcases hany with hany | hnil
  · have hq' : (qs.any fun p => p.kind == .varKeyword) = true := by
      rw [← hq, List.any_map] at hany
      exact hany
    rw [hq'] at hrefused
    exact absurd hrefused.2 (by decide)
  · rw [hnil] at hrefused
    exact absurd hrefused.1 (by decide)

end Parameter

theorem Source.names_of_shapes {fs : List Formal} {ps : List Param} (h : fs.map Formal.shape = ps.map Param.shape) :
    fs.map Formal.name = ps.map Param.name := by
  have := congrArg (List.map ParamShape.name) h
  rwa [List.map_map, List.map_map] at this

theorem Source.names_withReceiver {fs : List Formal} {ps : List Param} (h : fs.map Formal.shape = ps.map Param.shape)
    (receiver : Option String) :
    (withReceiver receiver fs).map Formal.name = receiver.toList ++ ps.map Param.name := by
  rw [← names_of_shapes h]
  cases receiver <;> rfl

/-- Read inside a class, parameters keep their shapes unless their names are private to it. -/
theorem Source.shapes_within {owner : String} {fs : List Formal}
    (stable : ∀ name ∈ fs.map Formal.name, Text.privateName owner name = name) :
    (fs.map (Formal.within owner)).map Formal.shape = fs.map Formal.shape := by
  rw [List.map_map]
  refine List.map_congr_left fun f hf => ?_
  show ParamShape.mk (Text.privateName owner f.name) f.kind (f.default.map _).isSome = _
  rw [stable f.name (List.mem_map_of_mem hf), Option.isSome_map]
  rfl

/-- The receiver of a call takes one value, and what the other parameters are bound to can be handed on. -/
theorem Source.handed_of_bind {receiver : Option String} {fs : List Formal}
    (legal : ParamShape.IsLegal ((withReceiver receiver fs).map Formal.shape)) {emitted : List Parameter}
    (hemitted : emitted.map Parameter.shape = (withReceiver receiver fs).map Formal.shape) {positional : List Value}
    {keywords env : Entries Value} (hkeywords : keywords.keys.Nodup)
    (hbind : Parameter.bind? emitted positional keywords = some env) :
    env.keys = (withReceiver receiver fs).map Formal.name ∧
      ∃ extra vs ks, Handed extra (fs.map Formal.shape) (env.drop receiver.toList.length) vs ks ∧ extra.keys.Nodup ∧
        (∀ s ∈ fs.map Formal.shape, s.isNamed = true → s.name ∉ extra.keys) ∧
        (extra = [] ∨ ∃ s ∈ fs.map Formal.shape, s.kind = .varKeyword) := by
  rw [← hemitted] at legal
  obtain ⟨hfrom, hsurplus⟩ := Parameter.bind?_eq_some hbind
  have hkeys : env.keys = (withReceiver receiver fs).map Formal.name := by
    obtain ⟨_, _, hwhole⟩ := Parameter.exists_handed hfrom
    rw [hwhole.keys_env, hemitted, List.map_map]
    rfl
  have hfront : fs.map Formal.shape ⊆ emitted.map Parameter.shape := by
    rw [hemitted]
    cases receiver with
    | none => exact List.Subset.refl _
    | some name => exact List.subset_cons_self _ _
  have hrest : (∃ rest, Parameter.bindFrom keywords (Parameter.extra emitted keywords)
      (emitted.drop receiver.toList.length) rest = some (env.drop receiver.toList.length)) ∧
      (emitted.drop receiver.toList.length).map Parameter.shape = fs.map Formal.shape ∧
      (Parameter.extra emitted keywords = [] ∨ ∃ s ∈ fs.map Formal.shape, s.kind = .varKeyword) := by
    cases receiver with
    | none => exact ⟨⟨positional, hfrom⟩, hemitted, hemitted ▸ hsurplus⟩
    | some name =>
      obtain ⟨q, qs, rfl, hq, hqs⟩ := List.map_eq_cons_iff.1 hemitted
      have hpositional : q.shape.isPositional = true := by
        rw [hq]
        show ParamShape.isPositional ⟨name, if _ then _ else _, false⟩ = true
        split <;> rfl
      obtain ⟨v, rest, env', rfl, hrest⟩ := Parameter.bindFrom_positional hpositional hfrom
      refine ⟨⟨rest, hrest⟩, hqs, hsurplus.imp id ?_⟩
      rintro ⟨s, hs, hkind⟩
      rcases List.mem_cons.1 hs with rfl | hs
      · rw [ParamShape.isPositional, hkind] at hpositional
        exact absurd hpositional (by decide)
      · exact ⟨s, hqs ▸ hs, hkind⟩
  obtain ⟨⟨rest, hrest⟩, htail, hsurplus⟩ := hrest
  obtain ⟨vs, ks, hhanded⟩ := Parameter.exists_handed hrest
  rw [htail] at hhanded
  exact ⟨hkeys, _, vs, ks, hhanded, Parameter.nodup_keys_extra hkeywords,
    fun s hs => Parameter.name_not_mem_extra (hfront hs), hsurplus⟩

/--
The parameters of a method are those of its signature behind the receiver, and they can stand in code. Whatever a call
binds to them, the arguments that the body hands on bind to the signature again as the same values.
-/
theorem Source.handed_on_unchanged (b : Blueprint) (m : MethodDef) (receiver : Option String)
    (legal : ParamShape.IsLegal (m.signature.params.map Param.shape))
    (apart : ∀ r ∈ receiver, r ∉ m.signature.params.map Param.name) :
    (∀ reference fs, aliasOf b m.reference = .ok reference →
      m.signature.params.mapM (formalOf b (implementation reference m.signature.kind m.name)) = .ok fs →
      formalsOf b m receiver = .ok (withReceiver receiver fs)) ∧
    ∀ formals, formalsOf b m receiver = .ok formals →
      (formals.take receiver.toList.length).map Formal.name = receiver.toList ∧
      (formals.drop receiver.toList.length).map Formal.shape = m.signature.params.map Param.shape ∧
      ParamShape.IsLegal (formals.map Formal.shape) ∧
      ∀ emitted own : List Parameter, emitted.map Parameter.shape = formals.map Formal.shape →
        own.map Parameter.shape = m.signature.params.map Param.shape →
        ∀ positional keywords env, keywords.keys.Nodup → Parameter.bind? emitted positional keywords = some env →
          ∃ vs ks, Parameter.bind? own vs ks = some (env.drop receiver.toList.length) ∧
            ∀ {M : Type → Type} [Monad M] [LawfulMonad M] (s : Surroundings M),
              evalArgs s env [] [] (forwardAll m.signature) = pure (some (vs, ks)) := by
  refine ⟨?_, ?_⟩
  · intro reference fs href hfs
    exact (formalsOf_eq_ok legal).2 ⟨reference, fs, href, hfs, formals_shapes legal.variadic hfs, rfl⟩
  intro formals hformals
  obtain ⟨reference, fs, -, -, hshapes, rfl⟩ := (formalsOf_eq_ok legal).1 hformals
  have hlegal : ParamShape.IsLegal ((withReceiver receiver fs).map Formal.shape) :=
    isLegal_withReceiver (hshapes ▸ legal) (names_of_shapes hshapes ▸ apart)
  refine ⟨by cases receiver <;> rfl, by rw [drop_withReceiver, hshapes], hlegal, ?_⟩
  intro emitted own hemitted hown positional keywords env hkeywords hbind
  rw [← hshapes] at hown
  obtain ⟨hkeys, extra, vs, ks, hhanded, hextra, hfree, hsurplus⟩ := handed_of_bind hlegal hemitted hkeywords hbind
  have hdistinct : env.keys.Nodup := by
    have := hlegal.distinct
    rw [List.map_map] at this
    rw [hkeys]
    exact this
  have hlocals : ∀ e ∈ env.drop receiver.toList.length, env.get? e.1 = some e.2 := fun e he =>
    Entries.get?_of_mem hdistinct (List.mem_of_mem_drop he)
  have hown' : ParamShape.IsLegal (fs.map Formal.shape) := hshapes ▸ legal
  refine ⟨vs, ks, Parameter.bind?_of_handed hhanded hown' hextra hfree hsurplus hown, ?_⟩
  intro M _ _ s
  have hargs : evalArgs s env [] [] (m.signature.params.map fun p => (forward p).within "") = pure (some (vs, ks)) := by
    refine evalArgs_forward s "" hhanded hshapes.symm (fun e he => ?_) (hhanded.nodup_keywords hown' hextra hfree)
    rw [privateName_empty, hlocals e he]
  simp only [Arg.within_empty] at hargs
  exact hargs

/-- A signature with a parameter of each kind. -/
def Signature.ofEachKind : Signature where
  name := "add"
  params := [{ name := "a", kind := .positionalOnly }, { name := "b" }, { name := "more", kind := .varPositional },
    { name := "c", kind := .keywordOnly }, { name := "other", kind := .varKeyword }]

/-- A surplus keyword may have the name of a parameter that only goes by its place. -/
theorem Source.handed_on_unchanged_surplus :
    ∃ formals env vs ks,
      formalsOf { header := { name := "Sale", base := "shop:Cart" }, aliases := [("shop:Cart", "Cart")] }
        { name := "add", memberId := "Sale.add", reference := "shop:Cart", core := .call ⟨"shop:Cart", "add"⟩,
          signature := .ofEachKind } (some "self") = .ok formals ∧
      Parameter.bind? ({ name := "self", kind := .positionalOnly } ::
          Signature.ofEachKind.params.map fun p => { name := p.name, kind := p.kind })
        [.inst 0, .int 1, .int 2, .int 3] [("c", .int 4), ("a", .int 5)] = some env ∧
      env.get? "other" = some (.dict [(.str "a", .int 5)]) ∧
      Parameter.bind? (Signature.ofEachKind.params.map fun p => { name := p.name, kind := p.kind }) vs ks =
        some (env.drop 1) := by
  obtain ⟨hemit, hall⟩ := handed_on_unchanged
    { header := { name := "Sale", base := "shop:Cart" }, aliases := [("shop:Cart", "Cart")] }
    { name := "add", memberId := "Sale.add", reference := "shop:Cart", core := .call ⟨"shop:Cart", "add"⟩,
      signature := .ofEachKind } (some "self") ⟨by decide, by decide, by decide⟩ (by decide)
  have hformals := hemit "Cart" (Signature.ofEachKind.params.map fun p => { name := p.name, kind := p.kind }) rfl
    (by decide +kernel)
  obtain ⟨-, -, -, hbind⟩ := hall _ hformals
  have hcall : Parameter.bind? ({ name := "self", kind := .positionalOnly } ::
      Signature.ofEachKind.params.map fun p => { name := p.name, kind := p.kind })
      [.inst 0, .int 1, .int 2, .int 3] [("c", .int 4), ("a", .int 5)] = some _ := rfl
  obtain ⟨vs, ks, hown, -⟩ := hbind _ (Signature.ofEachKind.params.map fun p => { name := p.name, kind := p.kind })
    rfl rfl _ _ _ (by decide) hcall
  exact ⟨_, _, vs, ks, hformals, hcall, rfl, hown⟩

end Amalgam
