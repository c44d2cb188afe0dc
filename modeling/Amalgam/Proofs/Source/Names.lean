import Amalgam.Proofs.Blueprint.Outline
import Amalgam.Proofs.Blueprint.Symbols
import Amalgam.Source.Compile
import Amalgam.Source.Private

/-!
# Names in the body of a class

A name that a generated body contains is read inside a class, where private names change, and compatibility characters
are never found. `Text.IsStable` are the names that stay what they are; `MethodDef.NamesHold` says of a method that all
names its body relies on do, and that the composite's own name takes none of their meanings.
-/

namespace Amalgam

namespace Text

theorem starts_of_isPrivateName {name : String} (h : isPrivateName name = true) : ['_', '_'] <+: name.toList := by
  unfold isPrivateName at h
  rw [Bool.and_eq_true, Bool.and_eq_true, String.startsWith_string_iff] at h
  exact h.1.1

theorem privateName_of_public {owner name : String} (h : isPrivateName name = false) : privateName owner name = name := by
  unfold privateName
  rw [h]
  rfl

theorem privateName_eq_self {owner name : String} (h : ¬['_', '_'] <+: name.toList) : privateName owner name = name :=
  privateName_of_public (by rw [← Bool.not_eq_true]; exact fun hp => h (starts_of_isPrivateName hp))

/-- A private name gets a single underscore and the stem of the owner in front. -/
theorem privateName_of_ne {owner name : String} (h : privateName owner name ≠ name) :
    isPrivateName name = true ∧ ∃ c stem, c ≠ '_' ∧ owner.toList.dropWhile (· == '_') = c :: stem ∧
      (privateName owner name).toList = '_' :: c :: (stem ++ name.toList) := by
  unfold privateName at h ⊢
  by_cases hprivate : (isPrivateName name && !(owner.toList.dropWhile (· == '_')).isEmpty) = true
  · rw [Bool.and_eq_true] at hprivate
    refine ⟨hprivate.1, ?_⟩
    cases hstem : owner.toList.dropWhile (· == '_') with
    | nil =>
      rw [hstem] at hprivate
      exact absurd hprivate.2 (by decide)
    | cons c stem =>
      have hc : c ≠ '_' := by
        have hhead := List.head?_dropWhile_not (· == '_') owner.toList
        rw [hstem] at hhead
        simpa using hhead
      refine ⟨c, stem, hc, rfl, ?_⟩
      simp [hprivate.1]
  · exact absurd (if_neg hprivate) h

/-- No name turns into one that is private itself. -/
theorem privateName_ne_of_private {owner name : String} (h : privateName owner name ≠ name) (other : String) :
    privateName owner other ≠ name := by
  intro heq
  by_cases hother : privateName owner other = other
  · rw [hother] at heq
    exact h (heq ▸ hother)
  · obtain ⟨-, c, stem, hc, -, hlist⟩ := privateName_of_ne hother
    have hstart := starts_of_isPrivateName (privateName_of_ne h).1
    rw [heq] at hlist
    rw [hlist] at hstart
    obtain ⟨tail, htail⟩ := hstart
    rw [List.cons_append, List.cons_append] at htail
    exact hc (List.cons.inj (List.cons.inj htail).2).1.symm

/-- A name without two underscores in a row is only that of itself. -/
theorem privateName_ne_of_plain {owner name other : String} (hother : ¬['_', '_'] <:+: other.toList) (h : name ≠ other) :
    privateName owner name ≠ other := by
  intro heq
  by_cases hname : privateName owner name = name
  · exact h (hname.symm.trans heq)
  · obtain ⟨hprivate, c, stem, -, -, hlist⟩ := privateName_of_ne hname
    rw [heq] at hlist
    obtain ⟨tail, htail⟩ := starts_of_isPrivateName hprivate
    refine hother ⟨'_' :: c :: stem, tail, ?_⟩
    rw [hlist, ← htail]
    simp

theorem privateName_eq_plain_iff {owner name plain : String} (h : ¬['_', '_'] <:+: plain.toList) :
    privateName owner name = plain ↔ name = plain := by
  constructor
  · intro heq
    by_contra hne
    exact privateName_ne_of_plain h hne heq
  · rintro rfl
    exact privateName_eq_self fun hstart => h hstart.isInfix

/-- No other name turns into that of the owner. -/
theorem privateName_ne_owner {owner name : String} (h : name ≠ owner) : privateName owner name ≠ owner := by
  intro heq
  by_cases hname : privateName owner name = name
  · exact h (hname.symm.trans heq)
  · obtain ⟨hprivate, c, stem, hc, hstem, hlist⟩ := privateName_of_ne hname
    rw [heq] at hlist
    -- Behind its underscore the owner would be its own stem, and a private name besides.
    rw [hlist, List.dropWhile_cons_of_pos (by decide), List.dropWhile_cons_of_neg (by simpa using hc)] at hstem
    have hnil : name.toList = [] := List.append_right_eq_self.1 (List.cons.inj hstem).2
    have hstart := starts_of_isPrivateName hprivate
    rw [hnil] at hstart
    exact absurd hstart (by decide)

/-- A name that means the same inside the body of a class as outside. -/
def IsStable (owner name : String) : Prop := privateName owner name = name ∧ isComposed name = true

instance (owner name : String) : Decidable (IsStable owner name) := inferInstanceAs (Decidable (_ ∧ _))

end Text

/-! ## The classes of the verdicts -/

/-- A path with a single colon is that of one reference only. -/
theorem SymbolRef.eq_of_path_eq {r s : SymbolRef} (h : r.path = s.path) (hhome : ':' ∉ s.home.toList)
    (hname : ':' ∉ s.qualname.toList) : r = s := by
  have hlist : r.home.toList ++ ':' :: r.qualname.toList = s.home.toList ++ ':' :: s.qualname.toList := by
    have := congrArg String.toList h
    simpa [path] using this
  rcases List.append_eq_append_iff.1 hlist with ⟨t, hs, hr⟩ | ⟨t, hr, hs⟩
  · cases t with
    | nil =>
      rw [List.append_nil] at hs
      rw [List.nil_append] at hr
      cases r
      cases s
      exact congrArg₂ _ (String.toList_injective hs.symm) (String.toList_injective (List.cons.inj hr).2)
    | cons c t =>
      have hc : c = ':' := (List.cons.inj hr).1.symm
      exact absurd (by rw [hs, hc]; simp) hhome
  · cases t with
    | nil =>
      rw [List.append_nil] at hr
      rw [List.nil_append] at hs
      cases r
      cases s
      exact congrArg₂ _ (String.toList_injective hr) (String.toList_injective (List.cons.inj hs).2.symm)
    | cons c t =>
      exact absurd (by rw [(List.cons.inj hs).2]; simp) hname

/-- The class of a verdict, as a symbol. -/
def Verdict.ref : Verdict → SymbolRef
  | .shortCircuit => .shortCircuit
  | .replace => .replace

theorem Verdict.seed_ref (k : Verdict) : Alias.seed k.ref = k.name := by
  cases k <;> decide +kernel

theorem isComposed_toString (n : Nat) : Text.isComposed (toString n) = true := by
  refine List.all_eq_true.2 fun c hc => ?_
  have hmem : c ∈ Nat.toDigits 10 n := by simpa using hc
  have hdigit : c.isDigit = true := Nat.isDigit_of_mem_toDigits (by decide) (by decide) hmem
  have hlt : c.toNat < 128 := by
    rw [Char.isDigit, Bool.and_eq_true, decide_eq_true_eq, decide_eq_true_eq] at hdigit
    have : c.val ≤ 57 := hdigit.2
    have : c.val.toNat ≤ 57 := this
    show c.val.toNat < 128
    omega
  rw [Text.isCompatibility, if_pos hlt]
  rfl

/-- The names tried for the class of a verdict are never private, and composed. -/
theorem Verdict.isStable_nth (k : Verdict) (owner : String) (n : Nat) :
    Text.IsStable owner (Alias.nth (Alias.seed k.ref) n) := by
  rw [k.seed_ref]
  have hstart : ∀ tail : String, ¬['_', '_'] <+: (k.name ++ tail).toList := by
    intro tail h
    obtain ⟨rest, hrest⟩ := h
    rw [String.toList_append] at hrest
    cases k <;> exact absurd (List.cons.inj hrest).1 (by decide)
  have hname : Text.isComposed k.name = true := by cases k <;> decide +kernel
  unfold Alias.nth
  split
  · refine ⟨Text.privateName_eq_self ?_, hname⟩
    have := hstart ""
    rwa [String.append_empty] at this
  · refine ⟨Text.privateName_eq_self ?_, ?_⟩
    · rw [String.append_assoc]
      exact hstart _
    · unfold Text.isComposed at hname ⊢
      rw [String.toList_append, String.toList_append, List.all_append, List.all_append, hname]
      exact isComposed_toString n

/-- So is the name that a blueprint gives it. -/
theorem Verdict.isStable_alias (k : Verdict) {symbols : List SymbolRef} {reserved : List String} {name : String}
    (h : (Alias.assign symbols reserved).get? k.ref.path = some name) (owner : String) : Text.IsStable owner name := by
  obtain ⟨r, -, hr, n, rfl⟩ := Alias.assign_tried h
  have heq : r = k.ref := by
    refine SymbolRef.eq_of_path_eq hr ?_ ?_
    · cases k <;> decide
    · cases k <;> decide
  rw [heq]
  exact k.isStable_nth owner n

/-! ## The names of a body -/

namespace MethodDef

/-- Whether a hook may decide over a call or its result. -/
def decides (m : MethodDef) : Bool := m.before.any (·.scope == .member) || m.after.any (·.scope == .member)

theorem isAdvised_of_decides {m : MethodDef} (h : m.decides = true) : m.isAdvised = true := by
  rw [decides, Bool.or_eq_true, List.any_eq_true, List.any_eq_true] at h
  rw [isAdvised]
  rcases h with ⟨call, hcall, -⟩ | ⟨call, hcall, -⟩
  · cases hb : m.before with
    | nil => rw [hb] at hcall; cases hcall
    | cons => rfl
  · cases ha : m.after with
    | nil => rw [ha] at hcall; cases hcall
    | cons => rw [List.isEmpty_cons, Bool.not_false, Bool.or_true]

/-- The symbols that a body calls, or whose members it calls. -/
def calledPaths (m : MethodDef) : List String :=
  m.contributors ++ match m.core with
    | .combine f _ => [f]
    | .call _ => []

/-- The classes that decisions are compared with. -/
def verdictPaths (m : MethodDef) : List String :=
  (if m.before.any (·.scope == .member) then [Verdict.shortCircuit.ref.path] else []) ++
    (if m.after.any (·.scope == .member) then [Verdict.replace.ref.path] else [])

theorem decides_of_mem_verdictPaths {m : MethodDef} {path : String} (h : path ∈ m.verdictPaths) : m.decides = true := by
  unfold verdictPaths at h
  rw [decides, Bool.or_eq_true]
  rcases List.mem_append.1 h with h | h <;> split at h
  · exact Or.inl ‹_›
  · cases h
  · exact Or.inr ‹_›
  · cases h

theorem exists_of_mem_verdictPaths {m : MethodDef} {path : String} (h : path ∈ m.verdictPaths) :
    ∃ k : Verdict, path = k.ref.path := by
  unfold verdictPaths at h
  rcases List.mem_append.1 h with h | h <;> split at h
  · exact ⟨.shortCircuit, List.mem_singleton.1 h⟩
  · cases h
  · exact ⟨.replace, List.mem_singleton.1 h⟩
  · cases h

theorem exists_verdict {m : MethodDef} (h : m.decides = true) : ∃ k : Verdict, k.ref.path ∈ m.verdictPaths := by
  rw [decides, Bool.or_eq_true] at h
  unfold verdictPaths
  rcases h with h | h
  · exact ⟨.shortCircuit, List.mem_append_left _ (by rw [if_pos h]; exact List.mem_singleton_self _)⟩
  · exact ⟨.replace, List.mem_append_right _ (by rw [if_pos h]; exact List.mem_singleton_self _)⟩

/-- Whether hooks are called through the composite, for want of a receiver. -/
def callsThroughName (m : MethodDef) : Bool := m.isAdvised && (Source.receiverOf m.signature.kind).isNone

/-- The names that a body spells out itself: those of its slots, of the test of decisions and of the composite. -/
def spelledNames (b : Blueprint) (m : MethodDef) : List String :=
  (if m.isAdvised then [Alias.returnSlot] else []) ++ (if m.decides then [Alias.decisionSlot, "isinstance"] else []) ++
    if m.callsThroughName then [b.name] else []

/-- The names of the symbols that a body refers to. -/
def symbolNames (b : Blueprint) (m : MethodDef) : List String :=
  (m.calledPaths ++ m.verdictPaths).filterMap b.aliases.get?

/-- The identifiers that the generator itself writes into a body. -/
def identifiers (b : Blueprint) (m : MethodDef) : List String :=
  (Source.receiverOf m.signature.kind).toList ++ (m.spelledNames b ++ m.symbolNames b)

/-- The locals with which a body starts. -/
def localNames (b : Blueprint) (m : MethodDef) : List String :=
  (Source.receiverOf m.signature.kind).toList ++ m.signature.params.map fun p => Text.privateName b.name p.name

/-- The locals that a body assigns. -/
def slots (m : MethodDef) : List String :=
  if m.isAdvised then Alias.returnSlot :: (if m.decides then [Alias.decisionSlot] else []) else []

/--
All names that a body relies on mean in it what they should: those of the symbols it calls and of the member stay what
they are, the name of the composite does too where hooks are called through it, no parameter becomes one of them, and
the name of the composite is neither a local of the body nor that of the test of decisions.
-/
structure NamesHold (b : Blueprint) (m : MethodDef) : Prop where
  called : ∀ path ∈ m.calledPaths, ∀ name ∈ b.aliases.get? path, Text.IsStable b.name name ∧ name ∉ m.localNames b
  verdict : ∀ path ∈ m.verdictPaths, ∀ name ∈ b.aliases.get? path, name ∉ m.localNames b
  member : Text.privateName b.name m.name = m.name
  owner : m.callsThroughName = true → Text.IsStable b.name b.name ∧ b.name ∉ m.slots
  test : m.decides = true → b.name ≠ "isinstance"

theorem namesHold_iff {b : Blueprint} {m : MethodDef} : m.NamesHold b ↔
    (∀ path ∈ m.calledPaths, ∀ name ∈ b.aliases.get? path, Text.IsStable b.name name ∧ name ∉ m.localNames b) ∧
      (∀ path ∈ m.verdictPaths, ∀ name ∈ b.aliases.get? path, name ∉ m.localNames b) ∧
      Text.privateName b.name m.name = m.name ∧
      (m.callsThroughName = true → Text.IsStable b.name b.name ∧ b.name ∉ m.slots) ∧
      (m.decides = true → b.name ≠ "isinstance") :=
  ⟨fun ⟨h₁, h₂, h₃, h₄, h₅⟩ => ⟨h₁, h₂, h₃, h₄, h₅⟩, fun ⟨h₁, h₂, h₃, h₄, h₅⟩ => ⟨h₁, h₂, h₃, h₄, h₅⟩⟩

instance (b : Blueprint) (m : MethodDef) : Decidable (m.NamesHold b) := decidable_of_iff _ namesHold_iff.symm

/-! ## What a build promises -/

/-- The symbols, the plan and the names of a method that is part of a blueprint that was built. -/
structure IsBuilt (b : Blueprint) (m : MethodDef) : Prop where
  fresh : ∀ {path name}, b.aliases.get? path = some name → name ∉ Alias.fixedNames ∧ name ≠ b.name
  apart : ∀ {path name}, b.aliases.get? path = some name → name ∉ m.signature.params.map Param.name
  injective : ∀ {path other name}, b.aliases.get? path = some name → b.aliases.get? other = some name → path = other
  verdict : ∀ {k : Verdict} {name}, b.aliases.get? k.ref.path = some name → Text.IsStable b.name name
  nonempty : m.core.targets ≠ []
  targets : ∀ target ∈ m.core.targets, target.member = m.name
  before : ∃ general special, m.Hooks .before general special ∧ m.before = general.toList ++ special.toList
  after : ∃ general special, m.Hooks .after general special ∧ m.after = special.toList ++ general.toList

theorem isBuilt_of_build {σ : Type} {p : Provider σ} {d : Blueprint.Defaults} {strict : Bool} {q : Request}
    {b : Blueprint} {t t' : Planning σ} (h : (Blueprint.build p d strict q).runFrom t = (.ok b, t')) {m : MethodDef}
    (hm : m ∈ b.methods) : m.IsBuilt b := by
  obtain ⟨o, u, claims, ho, -, rfl⟩ := Blueprint.build_eq_ok h
  have sound := Blueprint.outline_eq_ok p.keeps_trivial trivial ho
  obtain ⟨definitions, -, planned⟩ := sound.methods m hm
  obtain ⟨hbefore, hafter⟩ := planned.hooks
  refine ⟨?_, ?_, Alias.assign_injective, fun h => Verdict.isStable_alias _ h _, planned.nonempty, ?_, hbefore, hafter⟩
  · intro path name hname
    have hfresh := (Alias.assign_fresh hname).1
    unfold Blueprint.reservedNames at hfresh
    simp only [List.mem_append, not_or, List.mem_singleton] at hfresh
    exact ⟨hfresh.1.1.1, hfresh.1.1.2⟩
  · intro path name hname hparam
    refine (Alias.assign_fresh hname).1 (List.mem_append_right _ ?_)
    exact List.mem_flatMap.2 ⟨m, hm, List.mem_cons_of_mem _ hparam⟩
  · exact fun target htarget => (planned.targets target htarget).1

end MethodDef

end Amalgam
