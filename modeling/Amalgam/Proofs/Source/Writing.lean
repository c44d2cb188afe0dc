import Amalgam.Proofs.Source.Closure
import Amalgam.Proofs.Source.Literals
import Amalgam.Proofs.Source.Names
import Amalgam.Proofs.Source.Prelude

/-!
# What can be written as code

The class of a blueprint that is built can be written exactly if the names can that its code spells (`exists_classOf_iff`): the
symbols' own names spell identifiers, fields and methods have names that stand in code, arguments can be handed on in the order
of the parameters, optional parameters come last, and literals begin where they can be put.
-/

namespace Amalgam

open Source

/-- A symbol whose own name is spelled by the code of a class. -/
inductive Blueprint.Spells (b : Blueprint) : String → Prop where
  | base : Spells b b.header.base
  | extraBase {path : String} : path ∈ b.header.extraBases → Spells b path
  | field {f : FieldDef} : f ∈ b.fields → f.isCopied = true → Spells b f.origin
  | contributor {m : MethodDef} {target : MemberCall} : m ∈ b.methods → target ∈ m.core.targets → Spells b target.contributor
  | combinator {m : MethodDef} {f : String} {targets : List MemberCall} :
    m ∈ b.methods → m.core = .combine f targets → Spells b f
  | reference {m : MethodDef} {p : Param} {text : String} : m ∈ b.methods → p ∈ m.signature.params → p.IsGiven text →
    isLiteral text = false → Spells b m.reference

/-- The symbol of a path has a name that spells an identifier. -/
def Blueprint.CanSpell (b : Blueprint) (path : String) : Prop := ∀ r, (path, r) ∈ b.symbols → r.IsSpellable

/-- Which of the parameters that take one positional argument each are optional, in the order in which they are written. -/
def Signature.optional (s : Signature) : List Bool :=
  ((s.params.filter fun p => p.kind == .positionalOnly) ++ s.params.filter fun p => p.kind == .positionalOrKeyword).map
    fun p => p.default.isSome

/-- What it takes to write a method, but for the symbols. -/
structure MethodDef.IsWritable (m : MethodDef) : Prop where
  name : Text.isFreeName m.name = true
  forwards : ∀ p ∈ m.signature.params, (forward p).isReadable = true
  ordered : isOrdered (forwardAll m.signature) = true
  literals : ∀ p ∈ m.signature.params, PlacesParam p
  optional : m.signature.optional.Pairwise fun first second => first = true → second = true

/-- What it takes to write a class. -/
structure Blueprint.IsWritable (b : Blueprint) : Prop where
  symbols : ∀ path, b.Spells path → b.CanSpell path
  fields : ∀ f ∈ b.fields, isFieldName f.name = true ∧ PlacesField f
  methods : ∀ m ∈ b.methods, m.IsWritable

/-! ## Steps that succeed -/

namespace Outcome

variable {ε α β : Type}

theorem exists_bind_iff {x : Except ε α} {f : α → Except ε β} :
    (∃ b, x >>= f = .ok b) ↔ ∃ a, x = .ok a ∧ ∃ b, f a = .ok b := by
  simp only [bind_eq_ok]
  exact ⟨fun ⟨b, a, ha, hb⟩ => ⟨a, ha, b, hb⟩, fun ⟨a, ha, b, hb⟩ => ⟨b, a, ha, hb⟩⟩

theorem exists_mapM_iff {f : α → Except ε β} {as : List α} : (∃ bs, as.mapM f = .ok bs) ↔ ∀ a ∈ as, ∃ b, f a = .ok b := by
  refine ⟨fun ⟨bs, hbs⟩ a ha => ?_, exists_mapM_eq_ok⟩
  obtain ⟨b, -, hb⟩ := exists_mem_of_forall₂ (mapM_eq_ok.1 hbs) ha
  exact ⟨b, hb⟩

end Outcome

namespace Source

open Outcome (exists_bind_iff exists_mapM_iff)

theorem exists_nodeName_iff {name : String} : (∃ name', nodeName name = .ok name') ↔ Text.isIdentifier name = true := by
  unfold nodeName
  split
  · exact iff_of_true ⟨_, rfl⟩ ‹_›
  · exact iff_of_false (fun h => nomatch h.choose_spec) ‹_›

theorem readable_bind {α : Type} {ok : Bool} {x : Compiled α} {a : α} :
    (readable ok >>= fun _ => x) = .ok a ↔ ok = true ∧ x = .ok a := by
  cases ok with
  | true => exact ⟨fun h => ⟨rfl, h⟩, fun h => h.2⟩
  | false => exact iff_of_false (fun h => nomatch h) fun h => nomatch h.1

end Source

/-! ## The names of symbols -/

namespace Blueprint.IsBuilt

variable {b : Blueprint} (built : b.IsBuilt)

include built

/-- What the code looks up is the path of a symbol. -/
theorem exists_symbol {path : String} (h : b.LooksUp path) : ∃ r, (path, r) ∈ b.symbols := by
  obtain ⟨σ, p, d, strict, q, t, t', hb⟩ := built
  obtain ⟨o, u, claims, ho, hclaims, rfl⟩ := build_eq_ok hb
  have hkey : path ∈ (symbolsOf claims).keys :=
    mem_keys_symbolsOf.2 (claimed_of_looksUp (outline_eq_ok p.keeps_trivial trivial ho) hclaims h)
  obtain ⟨e, he, rfl⟩ := List.mem_map.1 hkey
  exact ⟨e.2, he⟩

variable {e : String × SymbolRef} (he : e ∈ b.symbols) {name : String} (hname : b.aliases.get? e.1 = some name)

include he hname

/-- The name of a symbol can be written exactly if the symbol's own name spells an identifier. -/
theorem isFreeName_alias_iff : Text.isFreeName name = true ↔ e.2.IsSpellable := by
  obtain ⟨⟨n, rfl⟩, hfree⟩ := built.tried he hname
  have hreserved : Text.isReserved (Alias.nth (Alias.seed e.2) n) = false := by
    rw [Text.isReserved, List.contains_eq_mem, decide_eq_false_iff_not]
    exact hfree
  rw [Text.isFreeName, hreserved, Bool.not_false, Bool.and_true, Alias.isIdentifier_nth_iff (Alias.seed_ne_empty _),
    Alias.isIdentifier_seed_iff]

theorem isIdentifier_alias_iff : Text.isIdentifier name = true ↔ e.2.IsSpellable := by
  obtain ⟨⟨n, rfl⟩, -⟩ := built.tried he hname
  rw [Alias.isIdentifier_nth_iff (Alias.seed_ne_empty _), Alias.isIdentifier_seed_iff]

/-- The symbols that come with the library have names that can be written. -/
theorem isFreeName_support {r : SymbolRef} (hr : r ∈ [.shortCircuit, .replace, .parameterDefault]) (hpath : e.1 = r.path) :
    Text.isFreeName name = true := by
  have hplain : ':' ∉ r.home.toList ∧ ':' ∉ r.qualname.toList ∧ Text.isIdentifier r.name = true := by
    simp only [List.mem_cons, List.not_mem_nil, or_false] at hr
    rcases hr with rfl | rfl | rfl <;> decide +kernel
  have hsame : e.2 = r := by
    obtain ⟨o, claims, rfl⟩ := built.exists_claims
    exact SymbolRef.eq_of_path_eq ((path_of_mem_symbolsOf he).trans hpath) hplain.1 hplain.2.1
  exact built.isFreeName_alias he hname (hsame ▸ hplain.2.2)

end Blueprint.IsBuilt

/-- What the code looks up has a name, which can be written exactly if the symbol's own name spells an identifier. -/
theorem Blueprint.IsBuilt.exists_alias {b : Blueprint} (built : b.IsBuilt) {path : String} (h : b.LooksUp path) :
    ∃ r name, (path, r) ∈ b.symbols ∧ b.aliases.get? path = some name ∧ (Text.isFreeName name = true ↔ b.CanSpell path) ∧
      (Text.isIdentifier name = true ↔ b.CanSpell path) := by
  obtain ⟨r, hr⟩ := built.exists_symbol h
  obtain ⟨name, hname⟩ := built.aliased hr
  have hsymbol : b.CanSpell path ↔ r.IsSpellable := by
    refine ⟨fun hall => hall r hr, fun hspelled r' hr' => ?_⟩
    have hsame := List.inj_on_of_nodup_map built.distinct hr' hr rfl
    obtain rfl : r' = r := congrArg Prod.snd hsame
    exact hspelled
  rw [hsymbol]
  exact ⟨r, name, hr, hname, built.isFreeName_alias_iff hr hname, built.isIdentifier_alias_iff hr hname⟩

namespace Source

open Outcome (exists_bind_iff exists_mapM_iff)

/-! ## Fields -/

section Field

variable {b : Blueprint} {f : FieldDef}

/-- A field can be written if its name can, its literal if it has one, and else the name that it is copied from. -/
theorem exists_fieldLine_iff {owner : String} (howner : f.isCopied = true → b.aliases.get? f.origin = some owner) :
    (∃ line, fieldLine b f = .ok line) ↔
      isFieldName f.name = true ∧ PlacesField f ∧ (f.isCopied = true → Text.isFreeName owner = true) := by
  have hborrowed : ∀ hcopied : f.isCopied = true, (∃ line, (do
      let owner ← aliasOf b f.origin
      readable (isFieldName f.name && Text.isFreeName owner)
      return { name := f.name, value := some (.copied owner), visibility := f.visibility } : Compiled FieldLine) = .ok line) ↔
      isFieldName f.name = true ∧ Text.isFreeName owner = true := by
    intro hcopied
    rw [aliasOf_eq_ok.2 (howner hcopied)]
    show (∃ line, (readable _ >>= fun _ => _) = _) ↔ _
    simp only [readable_bind, Bool.and_eq_true]
    constructor
    · rintro ⟨_, h, -⟩
      exact h
    · exact fun h => ⟨_, h, rfl⟩
  unfold fieldLine
  by_cases hdescriptor : f.isDescriptor = true
  · have hcopied : f.isCopied = true := by rw [FieldDef.isCopied, hdescriptor, Bool.true_or]
    have hplaces : PlacesField f := fun text hgiven => absurd hgiven.1 (by simp [hdescriptor])
    rw [if_pos hdescriptor, hborrowed hcopied]
    exact ⟨fun h => ⟨h.1, hplaces, fun _ => h.2⟩, fun h => ⟨h.1, h.2.2 hcopied⟩⟩
  rw [if_neg hdescriptor]
  rw [Bool.not_eq_true] at hdescriptor
  cases hdefault : f.default with
  | none =>
    have hcopied : ¬f.isCopied = true := by simp [FieldDef.isCopied, hdescriptor, hdefault]
    have hplaces : PlacesField f := fun text hgiven => absurd hgiven.2 (by simp [hdefault])
    show (∃ line, (readable _ >>= fun _ => _) = _) ↔ _
    simp only [readable_bind]
    constructor
    · rintro ⟨_, h, -⟩
      exact ⟨h, hplaces, fun hc => absurd hc hcopied⟩
    · exact fun h => ⟨_, h.1, rfl⟩
  | some text =>
    cases hliteral : isLiteral text with
    | true =>
      have hcopied : ¬f.isCopied = true := by simp [FieldDef.isCopied, hdescriptor, hdefault, hliteral]
      have hplaces : PlacesField f ↔ (Layout.fieldText? text).isSome = true := by
        rw [isSome_fieldText?_of_literal hliteral]
        refine ⟨fun h => h text ⟨hdescriptor, hdefault⟩ hliteral, fun h text' hgiven _ => ?_⟩
        obtain rfl : text' = text := Option.some.inj (hgiven.2.symm.trans hdefault)
        exact h
      rw [hplaces]
      simp only [hliteral, if_true, readable_bind, Bool.and_eq_true]
      constructor
      · rintro ⟨_, ⟨hfield, hplaced⟩, -⟩
        exact ⟨hfield, hplaced, fun hc => absurd hc hcopied⟩
      · exact fun h => ⟨_, ⟨h.1, h.2.1⟩, rfl⟩
    | false =>
      have hcopied : f.isCopied = true := by simp [FieldDef.isCopied, hdefault, hliteral]
      have hplaces : PlacesField f := by
        intro text' hgiven hliteral'
        obtain rfl : text' = text := Option.some.inj (hgiven.2.symm.trans hdefault)
        rw [hliteral] at hliteral'
        cases hliteral'
      simp only [hliteral, Bool.false_eq_true, if_false]
      rw [exists_bind_iff]
      constructor
      · rintro ⟨line, hline, -⟩
        obtain ⟨hfield, howner'⟩ := (hborrowed hcopied).1 ⟨line, hline⟩
        exact ⟨hfield, hplaces, fun _ => howner'⟩
      · rintro ⟨hfield, -, howner'⟩
        obtain ⟨line, hline⟩ := (hborrowed hcopied).2 ⟨hfield, howner' hcopied⟩
        exact ⟨line, hline, _, rfl⟩

end Field

/-! ## Parameters -/

theorem isReadable_implementation_iff {owner member : String} {kind : MemberKind} :
    (implementation owner kind member).isReadable = true ↔ Text.isFreeName owner = true ∧ Text.isFreeName member = true := by
  have hmark : Text.isFreeName "__func__" = true := by decide +kernel
  unfold implementation Target.isReadable
  by_cases hkind : kind = .ofClass
  · simp [hkind, hmark]
  · simp [hkind]

section Param

variable {b : Blueprint} {function : Target} {p : Param} {reader : String}
  (hreader : ∀ text, p.IsGiven text → isLiteral text = false → b.aliases.get? SymbolRef.parameterDefault.path = some reader)
  (hfree : Text.isFreeName reader = true)

include hreader hfree

theorem exists_defaultFor_iff : (∃ default, defaultFor b function p = .ok default) ↔
    PlacesParam p ∧ ∀ text, p.IsGiven text → isLiteral text = false → function.isReadable = true := by
  cases hkind : p.kind.isVariadic with
  | true =>
    have hnone : ∀ text, ¬p.IsGiven text := fun text hgiven => by simp [hgiven.1] at hkind
    have hfor : defaultFor b function p = .ok none := by
      unfold defaultFor
      cases hp : p.kind <;> rw [hp] at hkind <;> first | rfl | cases hkind
    exact iff_of_true ⟨none, hfor⟩ ⟨fun text h => absurd h (hnone text), fun text h => absurd h (hnone text)⟩
  | false =>
    rw [defaultFor_eq hkind]
    unfold defaultOf PlacesParam
    cases hdefault : p.default with
    | none =>
      have hnone : ∀ text, ¬p.IsGiven text := fun text hgiven => by simp [hgiven.2] at hdefault
      exact iff_of_true ⟨none, rfl⟩ ⟨fun text h => absurd h (hnone text), fun text h => absurd h (hnone text)⟩
    | some text =>
      have hgiven : ∀ text', p.IsGiven text' ↔ text' = text := fun text' =>
        ⟨fun h => Option.some.inj (h.2.symm.trans hdefault), fun h => ⟨hkind, h ▸ hdefault⟩⟩
      simp only [hgiven, forall_eq]
      cases hliteral : isLiteral text with
      | true =>
        simp only [if_true, readable_bind, isSome_paramText?_of_literal hliteral]
        exact ⟨fun ⟨_, h, _⟩ => ⟨fun _ => h, fun h => absurd h (by decide)⟩, fun h => ⟨_, h.1 trivial, rfl⟩⟩
      | false =>
        simp only [Bool.false_eq_true, if_false]
        rw [aliasOf_eq_ok.2 (hreader text ((hgiven text).2 rfl) hliteral)]
        show (∃ default, (readable (Text.isFreeName reader && function.isReadable) >>= fun _ => _) = _) ↔ _
        simp only [readable_bind, hfree, Bool.true_and]
        exact ⟨fun ⟨_, h, _⟩ => ⟨False.elim, fun _ => h⟩, fun h => ⟨_, h.2 trivial, rfl⟩⟩

theorem exists_formalOf_iff : (∃ f, formalOf b function p = .ok f) ↔ (PlacesParam p ∧
    ∀ text, p.IsGiven text → isLiteral text = false → function.isReadable = true) ∧ Text.isIdentifier p.name = true := by
  unfold formalOf
  rw [exists_bind_iff, ← exists_defaultFor_iff hreader hfree, ← exists_nodeName_iff]
  constructor
  · rintro ⟨default, hdefault, h⟩
    obtain ⟨name, hname, -⟩ := exists_bind_iff.1 h
    exact ⟨⟨default, hdefault⟩, name, hname⟩
  · rintro ⟨⟨default, hdefault⟩, name, hname⟩
    exact ⟨default, hdefault, exists_bind_iff.2 ⟨name, hname, _, rfl⟩⟩

end Param

/-- What can be handed on has a name that can be written. -/
theorem isIdentifier_of_forward {p : Param} (h : (forward p).isReadable = true) : Text.isIdentifier p.name = true := by
  have hvalue : isValueName p.name = true → Text.isIdentifier p.name = true := by
    intro h
    have hconstants : ∀ name ∈ ["None", "True", "False"], Text.isIdentifier name = true := by decide +kernel
    rw [isValueName, Bool.or_eq_true, List.contains_iff_mem] at h
    rcases h with h | h
    · exact (Bool.and_eq_true_iff.1 h).1
    · exact hconstants _ h
  unfold forward at h
  cases hkind : p.kind <;> rw [hkind] at h
  case keywordOnly => exact hvalue (Bool.and_eq_true_iff.1 h).2
  all_goals exact hvalue h

/-- Which of the positional parameters of a list are optional. -/
def optional (fs : List Formal) : List Bool := (fs.filter Formal.isPositional).map fun f => f.default.isSome

/-- Once a positional parameter is optional, those after it are. -/
theorem defaultsLast_iff {seen : Bool} {fs : List Formal} : defaultsLast seen fs = true ↔
    (seen :: optional fs).Pairwise fun first second => first = true → second = true := by
  induction fs generalizing seen with
  | nil => simp [defaultsLast, optional]
  | cons f fs ih =>
    unfold defaultsLast
    by_cases hpositional : f.isPositional = true
    · have hcons : optional (f :: fs) = f.default.isSome :: optional fs := by
        rw [optional, List.filter_cons_of_pos hpositional, List.map_cons, optional]
      rw [hpositional, if_neg (by decide), hcons]
      cases hdefault : f.default.isSome with
      | true =>
        rw [if_pos rfl, ih, List.pairwise_cons (a := seen)]
        refine ⟨fun h => ⟨fun second hsecond _ => ?_, h⟩, fun h => h.2⟩
        rcases List.mem_cons.1 hsecond with rfl | hsecond
        · rfl
        · exact (List.pairwise_cons.1 h).1 second hsecond rfl
      | false =>
        rw [if_neg Bool.false_ne_true, Bool.and_eq_true, ih, Bool.not_eq_true', List.pairwise_cons, List.pairwise_cons,
          List.pairwise_cons, List.forall_mem_cons]
        constructor
        · rintro ⟨rfl, -, h⟩
          simp [h]
        · rintro ⟨⟨hseen, hrest⟩, -, h⟩
          exact ⟨by simpa using hseen, hrest, h⟩
    · rw [Bool.not_eq_true] at hpositional
      have hcons : optional (f :: fs) = optional fs := by
        rw [optional, List.filter_cons_of_neg (by simp [hpositional]), optional]
      rw [hpositional, if_pos (by decide), hcons, ih]

theorem optional_withReceiver (receiver : Option String) (fs : List Formal) :
    (optional (withReceiver receiver fs)).Pairwise (fun first second => first = true → second = true) ↔
      (optional fs).Pairwise fun first second => first = true → second = true := by
  cases receiver with
  | none => rfl
  | some name =>
    have hcons : optional (withReceiver (some name) fs) = false :: optional fs := by
      unfold withReceiver optional
      dsimp only
      rw [List.filter_cons_of_pos, List.map_cons]
      · rfl
      · unfold Formal.isPositional
        dsimp only
        split <;> rfl
    rw [hcons, List.pairwise_cons]
    exact and_iff_right fun _ _ h => absurd h (by decide)

/-- Sorting keeps the positional parameters, those that are never named first. -/
theorem optional_sortFormals (fs : List Formal) : optional (sortFormals fs) =
    ((fs.filter fun f => f.kind == .positionalOnly) ++ fs.filter fun f => f.kind == .positionalOrKeyword).map
      fun f => f.default.isSome := by
  have hkept : ∀ kind : ParamKind, (kind = .positionalOnly ∨ kind = .positionalOrKeyword) →
      (fs.filter fun f => f.kind == kind).filter Formal.isPositional = fs.filter fun f => f.kind == kind := by
    intro kind hkind
    refine List.filter_eq_self.2 fun f hf => ?_
    have hf := beq_iff_eq.1 (List.mem_filter.1 hf).2
    unfold Formal.isPositional
    rw [hf]
    rcases hkind with rfl | rfl <;> rfl
  have hleft : ∀ (kind : ParamKind) (gs : List Formal), kind.rank = 2 ∨ kind.rank = 3 ∨ kind.rank = 4 →
      (∀ f ∈ gs, f.kind = kind) → gs.filter Formal.isPositional = [] := by
    intro kind gs hkind hgs
    refine List.filter_eq_nil_iff.2 fun f hf => ?_
    unfold Formal.isPositional
    rw [hgs f hf]
    cases kind <;> first | decide | exact absurd hkind (by decide)
  have hof : ∀ kind : ParamKind, ∀ f ∈ fs.filter (fun f => f.kind == kind), f.kind = kind := fun kind f hf =>
    beq_iff_eq.1 (List.mem_filter.1 hf).2
  have hlast : ∀ kind : ParamKind, ∀ f ∈ (fs.filter (fun f => f.kind == kind)).getLast?.toList, f.kind = kind := fun kind f hf =>
    hof kind f (List.mem_of_getLast? (Option.mem_toList.1 hf))
  unfold optional sortFormals
  simp only [List.filter_append]
  rw [hkept _ (Or.inl rfl), hkept _ (Or.inr rfl), hleft .varPositional _ (by decide) (hlast _),
    hleft .keywordOnly _ (by decide) (hof _), hleft .varKeyword _ (by decide) (hlast _), List.append_nil, List.append_nil,
    List.append_nil]

/-- Parameters are optional where the signature has them so. -/
theorem optional_of_formals {b : Blueprint} {function : Target} {s : Signature} {fs : List Formal}
    (h : s.params.mapM (formalOf b function) = .ok fs) : optional (sortFormals fs) = s.optional := by
  have hfilter : ∀ kind : ParamKind, kind.isVariadic = false → (fs.filter fun f => f.kind == kind).map (fun f => f.default.isSome) =
      (s.params.filter fun p => p.kind == kind).map fun p => p.default.isSome := by
    intro kind hkind
    have hall := Outcome.mapM_eq_ok.1 h
    clear h
    generalize s.params = ps at hall
    induction hall with
    | nil => rfl
    | @cons p f ps fs hf _ ih =>
      obtain ⟨default, hdefault, hf⟩ := Outcome.bind_eq_ok.1 hf
      obtain ⟨name, hname, hf⟩ := Outcome.bind_eq_ok.1 hf
      cases hf
      rw [List.filter_cons, List.filter_cons]
      dsimp only
      by_cases hp : (p.kind == kind) = true
      · have hpositional : p.kind.isVariadic = false := by rw [beq_iff_eq.1 hp, hkind]
        rw [defaultFor_eq hpositional] at hdefault
        rw [if_pos hp, if_pos hp, List.map_cons, List.map_cons, ih, defaultOf_eq_ok hdefault]
      · rw [if_neg hp, if_neg hp, ih]
  rw [optional_sortFormals, Signature.optional, List.map_append, List.map_append, hfilter _ rfl, hfilter _ rfl]

/-! ## Bodies -/

/-- Arguments in front that may stand early change nothing about the order of those behind them. -/
theorem isOrdered_append {front args : List Arg} (h : ∀ a ∈ front, a.isEarly = true) :
    isOrdered (front ++ args) = isOrdered args := by
  unfold isOrdered
  rw [List.dropWhile_append_of_pos h]

/-- A call that hands on all parameters can be written if its target can, and the parameters can be handed on. -/
theorem isReadable_call_iff {target : Target} {front : List Arg} {s : Signature} {isAwaited : Bool}
    (hearly : ∀ a ∈ front, a.isEarly = true) (hfront : ∀ a ∈ front, a.isReadable = true) :
    Call.isReadable { target, args := front ++ forwardAll s, isAwaited } = true ↔
      target.isReadable = true ∧ (∀ p ∈ s.params, (forward p).isReadable = true) ∧ isOrdered (forwardAll s) = true := by
  unfold Call.isReadable
  dsimp only
  rw [Bool.and_eq_true, Bool.and_eq_true, isOrdered_append hearly, List.all_eq_true, List.forall_mem_append, and_assoc]
  refine and_congr_right fun _ => and_congr_left fun _ => ?_
  rw [and_iff_right hfront, forwardAll, List.forall_mem_map]

/-- The hooks of a member have names that can be written, if the member has. -/
theorem isFreeName_hook {phase : Phase} {member : String} (h : Text.isFreeName member = true) :
    Text.isFreeName (Advice.hook phase member) = true := by
  rw [Text.isFreeName, Bool.and_eq_true] at h
  have hmark : Text.isIdentifier phase.mark = true := by cases phase <;> decide +kernel
  have hreserved : ∀ word ∈ Text.reservedWords, ¬phase.mark.toList <+: word.toList := by cases phase <;> decide +kernel
  rw [Text.isFreeName, Advice.hook, Text.isIdentifier_append hmark fun c hc => Text.isNameContinue_of_mem h.1 hc, Bool.true_and,
    Bool.not_eq_true', Text.isReserved, List.contains_eq_mem, decide_eq_false_iff_not]
  exact fun hmem => hreserved _ hmem (by rw [String.toList_append]; exact List.prefix_append _ _)

section Method

variable {b : Blueprint} {m : MethodDef} (closed : b.IsBuilt) (built : m.IsBuilt b) (hm : m ∈ b.methods)

/-- The name of a method can be written, and its parameters can be handed on. -/
def HandsOn (m : MethodDef) : Prop :=
  Text.isFreeName m.name = true ∧ (∀ p ∈ m.signature.params, (forward p).isReadable = true) ∧
    isOrdered (forwardAll m.signature) = true

/-- The symbols that a body calls can be spelled. -/
def SpellsCalls (b : Blueprint) (m : MethodDef) : Prop :=
  (∀ target ∈ m.core.targets, b.CanSpell target.contributor) ∧ ∀ f targets, m.core = .combine f targets → b.CanSpell f

include closed built hm

variable {receiver : Option String} (hreceiver : ∀ name ∈ receiver, Text.isFreeName name = true)

include hreceiver

theorem exists_contributorCall {target : MemberCall} (htarget : target ∈ m.core.targets) :
    ∃ call, contributorCall b m.signature receiver target = .ok call ∧
      (call.isReadable = true ↔ b.CanSpell target.contributor ∧ HandsOn m) := by
  obtain ⟨r, owner, -, howner, hfree, -⟩ := closed.exists_alias (.contributor hm htarget)
  refine ⟨_, by rw [contributorCall, aliasOf_eq_ok.2 howner]; rfl, ?_⟩
  have hearly : ∀ a ∈ receiver.toList.map Arg.name, a.isEarly = true := by
    cases receiver <;> simp [Arg.isEarly]
  have hfront : ∀ a ∈ receiver.toList.map Arg.name, a.isReadable = true := by
    intro a ha
    obtain ⟨name, hname, rfl⟩ := List.mem_map.1 ha
    show isValueName name = true
    rw [isValueName, hreceiver name (Option.mem_toList.1 hname), Bool.true_or]
  rw [isReadable_call_iff hearly hfront, isReadable_implementation_iff, built.targets target htarget, hfree, and_assoc]
  exact Iff.rfl

theorem exists_workOf : ∃ work, workOf b m receiver = .ok work ∧ (work.isReadable = true ↔ SpellsCalls b m ∧ HandsOn m) := by
  have hcalls := fun (target : MemberCall) (htarget : target ∈ m.core.targets) =>
    exists_contributorCall closed built hm hreceiver htarget
  obtain ⟨first, rest, htargets⟩ := List.exists_cons_of_ne_nil built.nonempty
  unfold workOf SpellsCalls
  cases hcore : m.core with
  | call target =>
    obtain ⟨call, hcall, hreadable⟩ := hcalls target (by rw [hcore]; exact List.mem_singleton_self _)
    refine ⟨.call call, by dsimp only; rw [hcall]; rfl, ?_⟩
    rw [Work.isReadable, hreadable]
    simp [Core.targets]
  | combine f targets =>
    obtain ⟨r, joiner, -, hjoiner, hfree, -⟩ := closed.exists_alias (.combinator hm hcore)
    rw [hcore] at hcalls htargets
    dsimp only [Core.targets] at hcalls htargets
    obtain ⟨calls, hmap⟩ := Outcome.exists_mapM_eq_ok fun target htarget => (hcalls target htarget).imp fun _ h => h.1
    have hall : calls.all Call.isReadable = true ↔ ∀ target ∈ targets, b.CanSpell target.contributor ∧ HandsOn m := by
      rw [List.all_eq_true]
      have hforall := Outcome.mapM_eq_ok.1 hmap
      constructor
      · intro h target htarget
        obtain ⟨call, hcall, hok⟩ := Outcome.exists_mem_of_forall₂ hforall htarget
        obtain ⟨call', hok', hreadable⟩ := hcalls target htarget
        obtain rfl : call = call' := Except.ok.inj (hok.symm.trans hok')
        exact hreadable.1 (h call hcall)
      · intro h call hcall
        obtain ⟨target, htarget, hok⟩ := Outcome.exists_mem_of_forall₂ hforall.flip hcall
        obtain ⟨call', hok', hreadable⟩ := hcalls target htarget
        obtain rfl : call = call' := Except.ok.inj (hok.symm.trans hok')
        exact hreadable.2 (h target htarget)
    refine ⟨.combine joiner calls, ?_, ?_⟩
    · dsimp only
      rw [hmap, aliasOf_eq_ok.2 hjoiner]
      rfl
    · rw [Work.isReadable, Bool.and_eq_true, hall, hfree]
      have hfirst : first ∈ targets := by rw [htargets]; exact List.mem_cons_self
      constructor
      · rintro ⟨hf, h⟩
        refine ⟨⟨fun target htarget => (h target htarget).1, fun f' targets' heq => ?_⟩, (h first hfirst).2⟩
        cases heq
        exact hf
      · rintro ⟨⟨h, hf⟩, hands⟩
        exact ⟨hf f targets rfl, fun target htarget => ⟨h target htarget, hands⟩⟩

omit hreceiver closed hm in
/-- What is called around a method has a name that can be written, if the method has. -/
theorem isFreeName_call (hname : Text.isFreeName m.name = true) {call : Advice.Call} (h : call ∈ m.before ++ m.after) :
    Text.isFreeName call.hook = true := by
  have hall : Text.isFreeName Advice.all = true := by decide +kernel
  have hof : ∀ {phase general special}, m.Hooks phase general special → call ∈ general.toList ++ special.toList →
      Text.isFreeName call.hook = true := by
    intro phase general special hooks hmem
    rcases List.mem_append.1 hmem with hmem | hmem
    · rw [(hooks.general call (Option.mem_toList.1 hmem)).1]
      exact isFreeName_hook hall
    · rw [(hooks.special call (Option.mem_toList.1 hmem)).1]
      exact isFreeName_hook hname
  rcases List.mem_append.1 h with h | h
  · obtain ⟨general, special, hooks, hbefore⟩ := built.before
    exact hof hooks (hbefore ▸ h)
  · obtain ⟨general, special, hooks, hafter⟩ := built.after
    rw [hafter, List.mem_append, or_comm, ← List.mem_append] at h
    exact hof hooks h

omit hreceiver in
/-- Hooks can be called if the method can be written and hands on its parameters. -/
theorem exists_hookStmts {owner : String} (howner : Text.isFreeName owner = true) :
    (∀ call ∈ m.before, ∃ stmts, beforeStmts b owner m call = .ok stmts ∧ (HandsOn m → stmts.all Stmt.isReadable = true)) ∧
      ∀ call ∈ m.after, ∃ stmts, afterStmts b owner m call = .ok stmts ∧ (HandsOn m → stmts.all Stmt.isReadable = true) := by
  have hslot : isValueName Alias.returnSlot = true := by decide +kernel
  have hcall : ∀ call ∈ m.before ++ m.after, ∀ front : List Arg, (∀ a ∈ front, a.isEarly = true) →
      (∀ a ∈ front, a.isReadable = true) → HandsOn m →
        (hookCall owner m.signature call (front ++ forwardAll m.signature)).isReadable = true := by
    intro call hmem front hearly hfront hands
    refine (isReadable_call_iff hearly hfront).2 ⟨?_, hands.2⟩
    rw [Target.isReadable, howner, Bool.true_and, List.all_cons, isFreeName_call built hands.1 hmem]
    rfl
  have hsupport : ∀ {r : SymbolRef}, r ∈ [SymbolRef.shortCircuit, .replace, .parameterDefault] → b.LooksUp r.path →
      ∃ name, aliasOf b r.path = .ok name ∧ Text.isFreeName name = true := by
    intro r hr hlooks
    obtain ⟨s, name, hs, hname, -⟩ := closed.exists_alias hlooks
    exact ⟨name, aliasOf_eq_ok.2 hname, closed.isFreeName_support hs hname hr rfl⟩
  constructor
  · intro call hmem
    have hmem' := List.mem_append_left m.after hmem
    unfold beforeStmts
    cases hscope : call.scope with
    | catchAll =>
      refine ⟨_, rfl, fun hands => ?_⟩
      rw [List.all_cons, Bool.and_eq_true]
      exact ⟨hcall call hmem' [.text m.memberId] (by simp [Arg.isEarly]) (by simp [Arg.isReadable]) hands, rfl⟩
    | member =>
      obtain ⟨cls, hcls, hfree⟩ := hsupport (by simp) (.shortCircuit hm hmem hscope)
      refine ⟨_, by dsimp only; rw [hcls]; rfl, fun hands => ?_⟩
      rw [List.all_cons, List.all_cons, Bool.and_eq_true, Bool.and_eq_true]
      exact ⟨hcall call hmem' [] (by simp) (by simp) hands, hfree, rfl⟩
  · intro call hmem
    have hmem' := List.mem_append_right m.before hmem
    unfold afterStmts
    cases hscope : call.scope with
    | catchAll =>
      refine ⟨_, rfl, fun hands => ?_⟩
      rw [List.all_cons, Bool.and_eq_true]
      exact ⟨hcall call hmem' [.text m.memberId, .name Alias.returnSlot] (by simp [Arg.isEarly])
        (by simp [Arg.isReadable, hslot]) hands, rfl⟩
    | member =>
      obtain ⟨cls, hcls, hfree⟩ := hsupport (by simp) (.replace hm hmem hscope)
      refine ⟨_, by dsimp only; rw [hcls]; rfl, fun hands => ?_⟩
      rw [List.all_cons, List.all_cons, Bool.and_eq_true, Bool.and_eq_true]
      exact ⟨hcall call hmem' [.name Alias.returnSlot] (by simp [Arg.isEarly]) (by simp [Arg.isReadable, hslot]) hands, hfree, rfl⟩

/-- A body can be written exactly if its calls can. -/
theorem exists_bodyOf_iff (hcomposite : Text.isFreeName b.name = true) :
    (∃ body, bodyOf b m receiver = .ok body) ↔ SpellsCalls b m ∧ HandsOn m := by
  obtain ⟨work, hwork, hreadable⟩ := exists_workOf closed built hm hreceiver
  have howner : Text.isFreeName (receiver.getD b.name) = true := by
    cases receiver with
    | none => exact hcomposite
    | some name => exact hreceiver name rfl
  obtain ⟨hbefore, hafter⟩ := exists_hookStmts closed built hm howner
  rw [← hreadable]
  cases hadvised : m.isAdvised with
  | false =>
    have hbody : bodyOf b m receiver = (do
        readable ([Stmt.give work].all Stmt.isReadable)
        return [Stmt.give work]) := by
      unfold bodyOf
      rw [hwork, hadvised]
      rfl
    rw [hbody]
    show (∃ body, (readable _ >>= fun _ => _) = _) ↔ _
    simp only [readable_bind, List.all_cons, List.all_nil, Bool.and_true, Stmt.isReadable]
    exact ⟨fun ⟨_, h, _⟩ => h, fun h => ⟨_, h, rfl⟩⟩
  | true =>
    obtain ⟨before, hmapBefore⟩ := Outcome.exists_mapM_eq_ok fun call hcall => (hbefore call hcall).imp fun _ h => h.1
    obtain ⟨after, hmapAfter⟩ := Outcome.exists_mapM_eq_ok fun call hcall => (hafter call hcall).imp fun _ h => h.1
    have hbody : bodyOf b m receiver = (do
        readable ((before.flatten ++ [Stmt.keep work] ++ after.flatten ++ [Stmt.finish]).all Stmt.isReadable)
        return before.flatten ++ [Stmt.keep work] ++ after.flatten ++ [Stmt.finish]) := by
      unfold bodyOf
      rw [hwork, hadvised]
      show (m.before.mapM (beforeStmts b (receiver.getD b.name) m) >>= _ : Compiled (List Stmt)) = _
      rw [hmapBefore]
      show (m.after.mapM (afterStmts b (receiver.getD b.name) m) >>= _ : Compiled (List Stmt)) = _
      rw [hmapAfter]
      rfl
    have hall : ∀ {f : Advice.Call → Compiled (List Stmt)} {calls : List Advice.Call} {stmts : List (List Stmt)},
        (∀ call ∈ calls, ∃ s, f call = .ok s ∧ (HandsOn m → s.all Stmt.isReadable = true)) → calls.mapM f = .ok stmts →
          HandsOn m → stmts.flatten.all Stmt.isReadable = true := by
      intro f calls stmts hcalls hmap hands
      rw [List.all_flatten, List.all_eq_true]
      intro s hs
      obtain ⟨call, hcall, hok⟩ := Outcome.exists_mem_of_forall₂ (Outcome.mapM_eq_ok.1 hmap).flip hs
      obtain ⟨s', hok', hs'⟩ := hcalls call hcall
      obtain rfl : s = s' := Except.ok.inj (hok.symm.trans hok')
      exact hs' hands
    rw [hbody]
    show (∃ body, (readable _ >>= fun _ => _) = _) ↔ _
    simp only [readable_bind, List.all_append, List.all_cons, List.all_nil, Bool.and_true, Bool.and_eq_true, Stmt.isReadable]
    constructor
    · rintro ⟨_, ⟨⟨-, h⟩, -⟩, -⟩
      exact h
    · intro h
      have hands := (hreadable.1 h).2
      exact ⟨_, ⟨⟨hall hbefore hmapBefore hands, h⟩, hall hafter hmapAfter hands⟩, rfl⟩

omit hreceiver built in
/-- The parameters of a method can be written exactly if each can and the optional ones come last. -/
theorem exists_formalsOf_iff (hname : Text.isFreeName m.name = true)
    (hparams : ∀ p ∈ m.signature.params, (forward p).isReadable = true) : (∃ formals, formalsOf b m receiver = .ok formals) ↔
      (∀ p ∈ m.signature.params, PlacesParam p ∧ ∀ text, p.IsGiven text → isLiteral text = false → b.CanSpell m.reference) ∧
        m.signature.optional.Pairwise fun first second => first = true → second = true := by
  obtain ⟨r, reference, -, href, hfree, -⟩ := closed.exists_alias (.reference hm)
  have hformal : ∀ p ∈ m.signature.params, (∃ f, formalOf b (implementation reference m.signature.kind m.name) p = .ok f) ↔
      PlacesParam p ∧ ∀ text, p.IsGiven text → isLiteral text = false → b.CanSpell m.reference := by
    intro p hp
    have htarget : (implementation reference m.signature.kind m.name).isReadable = true ↔ b.CanSpell m.reference := by
      rw [isReadable_implementation_iff, and_iff_left hname, hfree]
    have hidentifier := isIdentifier_of_forward (hparams p hp)
    by_cases hcomputed : ∃ text, p.IsGiven text ∧ isLiteral text = false
    · obtain ⟨text, hgiven, hliteral⟩ := hcomputed
      obtain ⟨s, reader, hs, hreader, -⟩ := closed.exists_alias (.parameterDefault hm hp hgiven.2 hliteral)
      have hread : Text.isFreeName reader = true := closed.isFreeName_support hs hreader (by simp) rfl
      rw [exists_formalOf_iff (fun _ _ _ => hreader) hread, and_iff_left hidentifier]
      simp only [htarget]
    · have hnone : ∀ text, p.IsGiven text → ¬isLiteral text = false := fun text hgiven hliteral => hcomputed ⟨text, hgiven, hliteral⟩
      rw [@exists_formalOf_iff _ _ _ "self" (fun text hgiven hliteral => absurd hliteral (hnone text hgiven)) (by decide +kernel),
        and_iff_left hidentifier]
      simp only [htarget]
  unfold formalsOf
  rw [aliasOf_eq_ok.2 href]
  show (∃ formals, (m.signature.params.mapM (formalOf b (implementation reference m.signature.kind m.name)) >>= _) = _) ↔ _
  rw [exists_bind_iff, ← forall₂_congr hformal, ← exists_mapM_iff]
  constructor
  · rintro ⟨fs, hfs, formals, h⟩
    refine ⟨⟨fs, hfs⟩, ?_⟩
    dsimp only at h
    split at h
    · rename_i hlast
      rw [← optional_of_formals hfs, ← optional_withReceiver receiver]
      exact (List.pairwise_cons.1 (defaultsLast_iff.1 hlast)).2
    · cases h
  · rintro ⟨⟨fs, hfs⟩, hoptional⟩
    rw [← optional_of_formals hfs, ← optional_withReceiver receiver] at hoptional
    have hlast : defaultsLast false (withReceiver receiver (sortFormals fs)) = true :=
      defaultsLast_iff.2 (List.pairwise_cons.2 ⟨fun _ _ h => absurd h (by decide), hoptional⟩)
    exact ⟨fs, hfs, withReceiver receiver (sortFormals fs), if_pos hlast⟩

end Method

/-- What it takes of the symbols to write a method. -/
def SpellsMethod (b : Blueprint) (m : MethodDef) : Prop :=
  SpellsCalls b m ∧ ∀ p ∈ m.signature.params, ∀ text, p.IsGiven text → isLiteral text = false → b.CanSpell m.reference

/-! ## Classes -/

section Class

variable {b : Blueprint} (closed : b.IsBuilt)

include closed

theorem exists_methodOf_iff {m : MethodDef} (built : m.IsBuilt b) (hm : m ∈ b.methods) (hcomposite : Text.isFreeName b.name = true) :
    (∃ c, methodOf b m = .ok c) ↔ SpellsMethod b m ∧ m.IsWritable := by
  have hreceiver : ∀ name ∈ receiverOf m.signature.kind, Text.isFreeName name = true := by
    cases m.signature.kind <;> rintro _ ⟨⟩ <;> decide +kernel
  have hsteps : (∃ c, methodOf b m = .ok c) ↔ Text.isIdentifier m.name = true ∧
      (∃ formals, formalsOf b m (receiverOf m.signature.kind) = .ok formals) ∧
        ∃ body, bodyOf b m (receiverOf m.signature.kind) = .ok body := by
    unfold methodOf
    rw [exists_bind_iff, ← exists_nodeName_iff]
    constructor
    · rintro ⟨name, hname, h⟩
      obtain ⟨formals, hformals, h⟩ := exists_bind_iff.1 h
      obtain ⟨body, hbody, -⟩ := exists_bind_iff.1 h
      exact ⟨⟨name, hname⟩, ⟨formals, hformals⟩, body, hbody⟩
    · rintro ⟨⟨name, hname⟩, ⟨formals, hformals⟩, body, hbody⟩
      exact ⟨name, hname, exists_bind_iff.2 ⟨formals, hformals, exists_bind_iff.2 ⟨body, hbody, _, rfl⟩⟩⟩
  rw [hsteps, exists_bodyOf_iff closed built hm hreceiver hcomposite]
  constructor
  · rintro ⟨-, hformals, hcalls, hname, hforwards, hordered⟩
    obtain ⟨hparams, hoptional⟩ := (exists_formalsOf_iff closed hm hname hforwards).1 hformals
    exact ⟨⟨hcalls, fun p hp => (hparams p hp).2⟩, hname, hforwards, hordered, fun p hp => (hparams p hp).1, hoptional⟩
  · rintro ⟨⟨hcalls, hdefaults⟩, hname, hforwards, hordered, hliterals, hoptional⟩
    exact ⟨(Bool.and_eq_true_iff.1 hname).1, (exists_formalsOf_iff closed hm hname hforwards).2
      ⟨fun p hp => ⟨hliterals p hp, hdefaults p hp⟩, hoptional⟩, hcalls, hname, hforwards, hordered⟩

theorem exists_base_iff {path : String} (h : b.LooksUp path) :
    (∃ name, (do nodeName (← aliasOf b path) : Compiled String) = .ok name) ↔ b.CanSpell path := by
  obtain ⟨r, name, -, hname, -, hidentifier⟩ := closed.exists_alias h
  rw [aliasOf_eq_ok.2 hname, ← hidentifier, ← exists_nodeName_iff]
  rfl

/-- What keeps the class from being written is a name or a statement. -/
theorem tellsOfText_of_built {e : Failure} (h : classOf b = .error e) : TellsOfText e := by
  refine tellsOfText_of_classOf (fun path hpath => ?_) h
  obtain ⟨r, name, -, hname, -⟩ := closed.exists_alias hpath
  exact Entries.mem_keys_of_get? hname

theorem isFreeName_composite : Text.isFreeName b.name = true := by
  obtain ⟨σ, p, d, strict, q, t, t', hb⟩ := closed
  obtain ⟨o, u, claims, ho, -, -⟩ := Blueprint.build_eq_ok hb
  rw [Blueprint.name_of_build hb]
  exact (Blueprint.outline_eq_ok p.keeps_trivial trivial ho).name

/-- The class of a blueprint that is built can be written exactly if the names can that its code spells. -/
theorem exists_classOf_iff : (∃ cls, classOf b = .ok cls) ↔ b.IsWritable := by
  have hcomposite := isFreeName_composite closed
  have hbases : (∃ bases, (b.header.base :: b.header.extraBases).mapM (fun path => do nodeName (← aliasOf b path)) = .ok bases) ↔
      ∀ path ∈ b.header.base :: b.header.extraBases, b.CanSpell path := by
    rw [exists_mapM_iff]
    refine forall₂_congr fun path hpath => exists_base_iff closed ?_
    rcases List.mem_cons.1 hpath with rfl | hpath
    · exact .base
    · exact .extraBase hpath
  have hfields : (∃ fields, b.fields.mapM (fieldLine b) = .ok fields) ↔ ∀ f ∈ b.fields, isFieldName f.name = true ∧ PlacesField f ∧
      (f.isCopied = true → b.CanSpell f.origin) := by
    rw [exists_mapM_iff]
    refine forall₂_congr fun f hf => ?_
    by_cases hcopied : f.isCopied = true
    · obtain ⟨r, owner, -, howner, hfree, -⟩ := closed.exists_alias (.field hf hcopied)
      rw [exists_fieldLine_iff fun _ => howner, hfree]
    · rw [@exists_fieldLine_iff _ _ "" fun h => absurd h hcopied]
      simp [hcopied]
  have hmethods : (∃ methods, b.methods.mapM (methodOf b) = .ok methods) ↔ ∀ m ∈ b.methods, SpellsMethod b m ∧ m.IsWritable := by
    obtain ⟨σ, p, d, strict, q, t, t', hb⟩ := closed
    rw [exists_mapM_iff]
    exact forall₂_congr fun m hm => exists_methodOf_iff ⟨σ, p, d, strict, q, t, t', hb⟩ (MethodDef.isBuilt_of_build hb hm) hm hcomposite
  have hsteps : (∃ cls, classOf b = .ok cls) ↔
      (∃ bases, (b.header.base :: b.header.extraBases).mapM (fun path => do nodeName (← aliasOf b path)) = .ok bases) ∧
        (∃ fields, b.fields.mapM (fieldLine b) = .ok fields) ∧ ∃ methods, b.methods.mapM (methodOf b) = .ok methods := by
    unfold classOf
    rw [exists_bind_iff]
    constructor
    · rintro ⟨bases, hb, h⟩
      obtain ⟨fields, hf, h⟩ := exists_bind_iff.1 h
      obtain ⟨methods, hm, -⟩ := exists_bind_iff.1 h
      exact ⟨⟨bases, hb⟩, ⟨fields, hf⟩, methods, hm⟩
    · rintro ⟨⟨bases, hb⟩, ⟨fields, hf⟩, methods, hm⟩
      obtain ⟨name, hname⟩ := exists_nodeName_iff.2 (Bool.and_eq_true_iff.1 hcomposite).1
      exact ⟨bases, hb, exists_bind_iff.2 ⟨fields, hf, exists_bind_iff.2 ⟨methods, hm, exists_bind_iff.2 ⟨name, hname, _, rfl⟩⟩⟩⟩
  rw [hsteps, hbases, hfields, hmethods]
  constructor
  · rintro ⟨hbases, hfields, hmethods⟩
    refine ⟨fun path hspells => ?_, fun f hf => ⟨(hfields f hf).1, (hfields f hf).2.1⟩, fun m hm => (hmethods m hm).2⟩
    cases hspells with
    | base => exact hbases _ List.mem_cons_self
    | extraBase h => exact hbases _ (List.mem_cons_of_mem _ h)
    | field hf hcopied => exact (hfields _ hf).2.2 hcopied
    | contributor hm htarget => exact (hmethods _ hm).1.1.1 _ htarget
    | combinator hm hcore => exact (hmethods _ hm).1.1.2 _ _ hcore
    | reference hm hp hgiven hliteral => exact (hmethods _ hm).1.2 _ hp _ hgiven hliteral
  · rintro ⟨hsymbols, hfields, hmethods⟩
    refine ⟨fun path hpath => hsymbols path ?_, fun f hf => ⟨(hfields f hf).1, (hfields f hf).2, fun hcopied => ?_⟩, fun m hm =>
      ⟨⟨⟨fun target htarget => ?_, fun f targets hcore => ?_⟩, fun p hp text hgiven hliteral => ?_⟩, hmethods m hm⟩⟩
    · rcases List.mem_cons.1 hpath with rfl | hpath
      · exact .base
      · exact .extraBase hpath
    · exact hsymbols _ (.field hf hcopied)
    · exact hsymbols _ (.contributor hm htarget)
    · exact hsymbols _ (.combinator hm hcore)
    · exact hsymbols _ (.reference hm hp hgiven hliteral)

/-- The attempt to put an artifact together breaks off, and is not refused, exactly if the class cannot be written or an import
cannot be read. -/
theorem compile_fails_iff : (∃ e, compile true b = .error e ∧ e.isOwn = false) ↔ ¬b.IsWritable ∨ HasUnreadableImport b := by
  rw [← exists_classOf_iff closed]
  cases hcls : classOf b with
  | error e =>
    have hown : e.isOwn = false := by
      rcases tellsOfText_of_built closed hcls with rfl | rfl <;> rfl
    refine iff_of_true ⟨e, ?_, hown⟩ (Or.inl fun h => nomatch h.choose_spec)
    rw [compile, hcls]
    rfl
  | ok cls =>
    rw [or_iff_right (not_not.2 ⟨cls, rfl⟩)]
    constructor
    · rintro ⟨e, he, hown⟩
      rcases compile_eq_error closed hcls he with ⟨path, rfl⟩ | ⟨-, hunreadable⟩
      · cases hown
      · exact hunreadable
    · exact fun h => ⟨_, compile_of_hasUnreadableImport hcls h, rfl⟩

end Class

end Source

end Amalgam
