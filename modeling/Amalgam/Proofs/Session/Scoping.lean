import Amalgam.Proofs.Blueprint.Built
import Amalgam.Proofs.Session.Seed
import Amalgam.Proofs.Source.Hygiene
import Amalgam.Proofs.World.Recorded

/-!
# Where the names of symbols lead

The code of a class reads the names of symbols in the values of its fields, in the defaults of its parameters and in the bodies
of its methods (`Source.Class.Reads`). There a name is looked for nearer than in the module first: among the names that the class
has at that point, or among the locals of the body. And it is read as it is inside the class: its characters are composed, and a
private name is changed. So a name leads to what the module has under it only if it stays what it is and nothing nearer has it.

Names of symbols are chosen apart from the names of members and parameters as these are written. `Blueprint.alias_refers_iff` says
which of them are identifiers at all, which are private, and when one that is read leads to its symbol.
-/

namespace Amalgam

namespace Text

/-- A name as it is read inside a class: first its characters are composed, whatever that makes of them, and then a private name
is changed. -/
def readIn (compose : String → String) (owner name : String) : String := privateName (compose owner) (compose name)

/-- A name without a dot stays what it is in a class if it begins with two underscores only where it ends with two, or if the
class is named by underscores alone. -/
theorem privateName_eq_self_iff {owner name : String} (undotted : '.' ∉ name.toList) : privateName owner name = name ↔
    (name.startsWith "__" = true → name.endsWith "__" = true) ∨ owner.toList.all (· == '_') = true := by
  have hprivate : isPrivateName name = true ↔ name.startsWith "__" = true ∧ ¬name.endsWith "__" = true := by
    simp [isPrivateName, undotted]
  have hstem : owner.toList.dropWhile (· == '_') = [] ↔ owner.toList.all (· == '_') = true := by
    rw [List.dropWhile_eq_nil_iff, List.all_eq_true]
  constructor
  · intro h
    by_contra hnot
    rw [not_or, Classical.not_imp, ← hprivate, ← hstem] at hnot
    obtain ⟨c, stem, hstem⟩ := List.exists_cons_of_ne_nil hnot.2
    have hlength := congrArg (fun s => s.toList.length) h
    simp only [privateName, hnot.1, hstem, List.isEmpty_cons, Bool.not_false, Bool.and_self, if_true, String.toList_append,
      String.toList_ofList, List.length_append, List.length_cons] at hlength
    omega
  · rintro (hends | hall)
    · exact privateName_of_public (by rw [← Bool.not_eq_true, hprivate]; exact fun h => h.2 (hends h.1))
    · have hnil := hstem.2 hall
      unfold privateName
      rw [hnil]
      simp

/-- A name that begins with no underscore is only that of itself. -/
theorem privateName_eq_of_head {owner name other : String} (head : other.toList.head? ≠ some '_')
    (h : privateName owner name = other) : name = other := by
  by_contra hne
  have hchanged : privateName owner name ≠ name := fun heq => hne (heq.symm.trans h)
  obtain ⟨-, c, stem, -, -, hlist⟩ := privateName_of_ne hchanged
  rw [h] at hlist
  rw [hlist] at head
  exact head rfl

end Text

/-! ## Readings -/

namespace Source

/-- A name that is read inside a class, and what is bound nearer than the module there: names that stand for something in any
case, and names that the code binds. -/
structure Reading where
  name : String
  given : List String
  bound : List String

namespace Reading

variable (compose : String → String) (owner : String)

/-- All names that are bound nearer than the module. -/
def nearer (r : Reading) : List String := r.given ++ r.bound.map (Text.readIn compose owner)

/-- What is found: what is bound nearer, or else what the module has. -/
def find? (r : Reading) (near names : Entries Value) : Option Value :=
  (near.get? (Text.readIn compose owner r.name)).or (names.get? (Text.readIn compose owner r.name))

/-- A name refers to one of the module if what the module has under that is found, whatever is bound nearer. -/
def RefersTo (r : Reading) (name : String) : Prop :=
  ∀ near names : Entries Value, (∀ n, n ∈ near.keys ↔ n ∈ r.nearer compose owner) → r.find? compose owner near names = names.get? name

variable {compose owner}

theorem refersTo_iff {r : Reading} {name : String} : r.RefersTo compose owner name ↔
    Text.readIn compose owner r.name = name ∧ name ∉ r.given ∧ ∀ n ∈ r.bound, Text.readIn compose owner n ≠ name := by
  have hnearer : name ∉ r.nearer compose owner ↔ name ∉ r.given ∧ ∀ n ∈ r.bound, Text.readIn compose owner n ≠ name := by
    simp [nearer]
  rw [← hnearer]
  constructor
  · intro h
    -- What is bound nearer is told apart from what the module has.
    have hfound := h ((r.nearer compose owner).map fun n => (n, .none)) [(name, .bool true)] (by simp [Entries.keys])
    generalize hnear : ((r.nearer compose owner).map fun n => (n, Value.none) : Entries Value) = near at hfound
    unfold find? at hfound
    cases hget : Entries.get? near (Text.readIn compose owner r.name) with
    | none =>
      rw [hget] at hfound
      have hname : Text.readIn compose owner r.name = name := by
        by_contra hne
        simp [Entries.get?, Ne.symm hne] at hfound
      rw [hname, Entries.get?_eq_none_iff, ← hnear] at hget
      exact ⟨hname, by simpa [Entries.keys] using hget⟩
    | some v =>
      have hmem := Entries.mem_of_get? hget
      rw [← hnear] at hmem
      obtain ⟨n, -, heq⟩ := List.mem_map.1 hmem
      rw [hget, ← (Prod.mk.inj heq).2] at hfound
      simp [Entries.get?] at hfound
  · rintro ⟨rfl, hfree⟩ near names hkeys
    have hnone : near.get? (Text.readIn compose owner r.name) = none :=
      (Entries.get?_eq_none_iff _ _).2 fun hmem => hfree ((hkeys _).1 hmem)
    rw [find?, hnone, Option.none_or]

/-- Where nothing is composed, a name that begins with no underscore refers to itself, if it is not bound nearer as it is. -/
theorem refersTo_of_head {r : Reading} (head : r.name.toList.head? ≠ some '_')
    (composed : ∀ n ∈ r.name :: r.bound, compose n = n) (hgiven : ∀ n ∈ r.given, n.toList.head? = some '_')
    (hbound : r.name ∉ r.bound) : r.RefersTo compose owner r.name := by
  obtain ⟨hname, hnames⟩ := List.forall_mem_cons.1 composed
  refine refersTo_iff.2 ⟨?_, fun hmem => head (hgiven _ hmem), fun n hn heq => hbound ?_⟩
  · rw [Text.readIn, hname]
    refine Text.privateName_eq_self fun hstart => head ?_
    obtain ⟨tail, htail⟩ := hstart
    rw [← htail]
    rfl
  · rw [Text.readIn, hnames n hn] at heq
    rwa [← Text.privateName_eq_of_head head heq]

end Reading

/-! ## Where names are read -/

/-- The names that the body of a class has from the start; with annotations it has a table of them. -/
def Class.given (k : Class) : List String :=
  ["__debug__", "__module__", "__qualname__"] ++ if k.fields.any fun f => f.hint.isSome then ["__annotations__"] else []

/-- The names that stand for something in every body of a method: one of them for the class. -/
def Method.given : List String := ["__debug__", "__class__"]

/-- The names that lines of fields bind; an attribute that is set on another object is none of the class. -/
def boundBy (fields : List FieldLine) : List String :=
  (fields.filter fun f => f.value.isSome && !f.name.toList.contains '.').map FieldLine.name

/-- The names that are local to a method. -/
def Method.locals (c : Method) : List String := c.formals.map Formal.name ++ c.body.filterMap Stmt.assigned?

/-- Where the code of a class reads a name that is not handed on: for the value of a field, behind the fields before it; for the
default of a parameter, behind all fields and the methods before it; and in the body of a method. -/
inductive Class.Reads (k : Class) : Reading → Prop
  | value {done rest : List FieldLine} {f : FieldLine} {owner : String} (hfields : k.fields = done ++ f :: rest)
      (hvalue : f.value = some (.copied owner)) : Reads k ⟨owner, k.given, boundBy done⟩
  | default {done rest : List Method} {c : Method} {f : Formal} {reader param name : String} {function : Target}
      (hmethods : k.methods = done ++ c :: rest) (hf : f ∈ c.formals) (hdefault : f.default = some (.readBack reader function param))
      (hname : name ∈ [reader, function.head]) : Reads k ⟨name, k.given, boundBy k.fields ++ done.map Method.name⟩
  | body {c : Method} {name : String} (hc : c ∈ k.methods) (hname : name ∈ c.identifiers) : Reads k ⟨name, Method.given, c.locals⟩

namespace Class.Reads

variable {b : Blueprint} {k : Class} {r : Reading}

/-- All names that are bound in any case begin with an underscore. -/
theorem head_given (h : k.Reads r) : ∀ n ∈ r.given, n.toList.head? = some '_' := by
  have hclass : ∀ n ∈ k.given, n.toList.head? = some '_' := by
    intro n hn
    unfold Class.given at hn
    have hall : ∀ n ∈ ["__debug__", "__module__", "__qualname__"] ++ ["__annotations__"], n.toList.head? = some '_' := by decide
    refine hall n (List.mem_append.2 ((List.mem_append.1 hn).imp_right fun hn => ?_))
    split at hn
    · exact hn
    · cases hn
  cases h with
  | value => exact hclass
  | default => exact hclass
  | body => exact (by decide : ∀ n ∈ Method.given, n.toList.head? = some '_')

/-- A parameter of a method is one of its signature, or the receiver, which has no default. -/
theorem param_of_formalsOf {m : MethodDef} {receiver : Option String} {formals : List Formal}
    (h : formalsOf b m receiver = .ok formals) {f : Formal} (hf : f ∈ formals) :
    (f.name ∈ receiver ∧ f.default = none) ∨ ∃ function, ∃ p ∈ m.signature.params, formalOf b function p = .ok f := by
  obtain ⟨reference, -, h⟩ := Outcome.bind_eq_ok.1 h
  obtain ⟨fs, hfs, h⟩ := Outcome.bind_eq_ok.1 h
  have hsorted : f ∈ sortFormals fs → ∃ function, ∃ p ∈ m.signature.params, formalOf b function p = .ok f := by
    intro hf
    have hmem : f ∈ fs := by
      simp only [sortFormals, List.mem_append, Option.mem_toList] at hf
      rcases hf with (((hf | hf) | hf) | hf) | hf
      · exact (List.mem_filter.1 hf).1
      · exact (List.mem_filter.1 hf).1
      · exact (List.mem_filter.1 (List.mem_of_getLast? hf)).1
      · exact (List.mem_filter.1 hf).1
      · exact (List.mem_filter.1 (List.mem_of_getLast? hf)).1
    obtain ⟨p, hp, hpf⟩ := Outcome.exists_mem_of_forall₂ (Outcome.mapM_eq_ok.1 hfs).flip hmem
    exact ⟨_, p, hp, hpf⟩
  dsimp only at h
  split at h
  · cases h
    unfold withReceiver at hf
    split at hf
    · exact Or.inr (hsorted hf)
    · rcases List.mem_cons.1 hf with rfl | hf
      · exact Or.inl ⟨rfl, rfl⟩
      · exact Or.inr (hsorted hf)
  · cases h

theorem name_of_formalOf {function : Target} {p : Param} {f : Formal} (h : formalOf b function p = .ok f) : f.name = p.name := by
  obtain ⟨default, -, h⟩ := Outcome.bind_eq_ok.1 h
  obtain ⟨name, hname, h⟩ := Outcome.bind_eq_ok.1 h
  cases h
  exact nodeName_eq_ok hname

/-- The code that a class binds names with spells names that are kept from symbols. -/
theorem reserved_of_bound (hk : classOf b = .ok k) (h : k.Reads r) :
    ∀ n ∈ r.bound, n ∈ Blueprint.reservedNames b.name b.fields b.methods := by
  obtain ⟨hfields, hmethods, -⟩ := classOf_eq_ok hk
  have hfield : ∀ fs : List FieldLine, (∀ f ∈ fs, f ∈ k.fields) → ∀ n ∈ boundBy fs,
      n ∈ Blueprint.reservedNames b.name b.fields b.methods := by
    intro fs hfs n hn
    obtain ⟨line, hline, rfl⟩ := List.mem_map.1 hn
    obtain ⟨f, hf, hfline⟩ := Outcome.exists_mem_of_forall₂ (Outcome.mapM_eq_ok.1 hfields).flip (hfs line (List.mem_filter.1 hline).1)
    rw [fieldLine_name hfline]
    exact List.mem_append_left _ (List.mem_append_right _ (List.mem_map_of_mem hf))
  have hmethod : ∀ c ∈ k.methods, ∃ m ∈ b.methods, methodOf b m = .ok c := fun c hc =>
    Outcome.exists_mem_of_forall₂ (Outcome.mapM_eq_ok.1 hmethods).flip hc
  have hfixed : ∀ n ∈ Alias.fixedNames, n ∈ Blueprint.reservedNames b.name b.fields b.methods := fun n hn =>
    List.mem_append_left _ (List.mem_append_left _ (List.mem_append_left _ hn))
  have hreceivers : ∀ kind, ∀ n ∈ receiverOf kind, n ∈ Alias.fixedNames := by
    intro kind n hn
    cases kind <;> cases hn <;> decide
  cases h with
  | value hsplit => exact hfield _ fun f hf => hsplit ▸ List.mem_append_left _ hf
  | default hsplit =>
    intro n hn
    rcases List.mem_append.1 hn with hn | hn
    · exact hfield _ (fun f hf => hf) n hn
    · obtain ⟨c, hc, rfl⟩ := List.mem_map.1 hn
      obtain ⟨m, hm, hmc⟩ := hmethod c (hsplit ▸ List.mem_append_left _ hc)
      rw [(methodOf_eq_ok hmc).1]
      exact List.mem_append_right _ (List.mem_flatMap.2 ⟨m, hm, List.mem_cons_self⟩)
  | @body c name hc hname =>
    intro n hn
    obtain ⟨m, hm, hmc⟩ := hmethod c hc
    obtain ⟨-, -, -, hformals, -⟩ := methodOf_eq_ok hmc
    rcases List.mem_append.1 hn with hn | hn
    · obtain ⟨f, hf, rfl⟩ := List.mem_map.1 hn
      rcases param_of_formalsOf hformals hf with ⟨hreceiver, -⟩ | ⟨function, p, hp, hpf⟩
      · exact hfixed _ (hreceivers _ _ hreceiver)
      · rw [name_of_formalOf hpf]
        exact List.mem_append_right _ (List.mem_flatMap.2 ⟨m, hm, List.mem_cons_of_mem _ (List.mem_map_of_mem hp)⟩)
    · obtain ⟨s, -, hs⟩ := List.mem_filterMap.1 hn
      refine hfixed _ ?_
      cases s <;> cases hs <;> decide

/-! ### What can be written -/

theorem readable_eq_ok {ok : Bool} {u : Unit} : readable ok = .ok u ↔ ok = true := by
  cases ok <;> simp [readable]

/-- A field is copied from a name that can be written. -/
theorem isFreeName_of_copied {f : FieldDef} {line : FieldLine} (h : fieldLine b f = .ok line) {owner : String}
    (hvalue : line.value = some (.copied owner)) : Text.isFreeName owner = true := by
  have hborrowed : ∀ {line : FieldLine}, (do
      let owner ← aliasOf b f.origin
      readable (isFieldName f.name && Text.isFreeName owner)
      return { name := f.name, value := some (.copied owner), visibility := f.visibility }) = Except.ok line →
      line.value = some (.copied owner) → Text.isFreeName owner = true := by
    intro line h hvalue
    obtain ⟨source, -, h⟩ := Outcome.bind_eq_ok.1 h
    obtain ⟨_, hreadable, h⟩ := Outcome.bind_eq_ok.1 h
    cases h
    cases hvalue
    exact (Bool.and_eq_true_iff.1 (readable_eq_ok.1 hreadable)).2
  unfold fieldLine at h
  split at h
  · exact hborrowed h hvalue
  · split at h
    · obtain ⟨_, -, h⟩ := Outcome.bind_eq_ok.1 h
      cases h
      cases hvalue
    · rename_i text _
      cases hliteral : isLiteral text with
      | true =>
        simp only [hliteral] at h
        obtain ⟨_, -, h⟩ := Outcome.bind_eq_ok.1 h
        cases h
        cases hvalue
      | false =>
        simp only [hliteral] at h
        obtain ⟨line', hline', h⟩ := Outcome.bind_eq_ok.1 h
        cases h
        exact hborrowed hline' hvalue

/-- A default is read back by names that can be written. -/
theorem isFreeName_of_readBack {function target : Target} {p : Param} {f : Formal} {reader param : String}
    (h : formalOf b function p = .ok f) (hdefault : f.default = some (.readBack reader target param)) :
    Text.isFreeName reader = true ∧ Text.isFreeName target.head = true := by
  obtain ⟨default, hd, h⟩ := Outcome.bind_eq_ok.1 h
  obtain ⟨name, -, h⟩ := Outcome.bind_eq_ok.1 h
  cases h
  obtain rfl : default = some (.readBack reader target param) := hdefault
  have hd : defaultOf b function p = .ok (some (.readBack reader target param)) := by
    unfold defaultFor at hd
    split at hd
    · cases hd
    · cases hd
    · exact hd
  unfold defaultOf at hd
  split at hd
  · cases hd
  · split at hd
    · obtain ⟨_, -, hd⟩ := Outcome.bind_eq_ok.1 hd
      cases hd
    · obtain ⟨name, -, hd⟩ := Outcome.bind_eq_ok.1 hd
      obtain ⟨_, hreadable, hd⟩ := Outcome.bind_eq_ok.1 hd
      cases hd
      obtain ⟨hreader, htarget⟩ := Bool.and_eq_true_iff.1 (readable_eq_ok.1 hreadable)
      exact ⟨hreader, (Bool.and_eq_true_iff.1 htarget).1⟩

/-- The statements of a body can be written. -/
theorem isReadable_of_bodyOf {m : MethodDef} {receiver : Option String} {body : List Stmt} (h : bodyOf b m receiver = .ok body) :
    body.all Stmt.isReadable = true := by
  obtain ⟨work, -, h⟩ := Outcome.bind_eq_ok.1 h
  have hkept : ∀ body' : List Stmt, (do
      readable (body'.all Stmt.isReadable)
      return body') = .ok body → body.all Stmt.isReadable = true := by
    intro body' h
    obtain ⟨_, hreadable, h⟩ := Outcome.bind_eq_ok.1 h
    cases h
    exact readable_eq_ok.1 hreadable
  cases hadvised : m.isAdvised with
  | false =>
    rw [hadvised] at h
    exact hkept _ h
  | true =>
    rw [hadvised] at h
    obtain ⟨before, -, h⟩ := Outcome.bind_eq_ok.1 h
    obtain ⟨after, -, h⟩ := Outcome.bind_eq_ok.1 h
    exact hkept _ h

/-- So can the names that they rely on. -/
theorem isFreeName_of_identifiers {receiver : Option String} {s : Stmt} (h : s.isReadable = true) :
    ∀ name ∈ s.identifiers receiver, Text.isFreeName name = true := by
  have hcall : ∀ {c : Call}, c.isReadable = true → Text.isFreeName c.target.head = true := by
    intro c hc
    simp only [Call.isReadable, Target.isReadable, Bool.and_eq_true] at hc
    exact hc.1.1.1
  have howners : ∀ {c : Call}, c.isReadable = true → ∀ name ∈ c.owners receiver, Text.isFreeName name = true := by
    intro c hc name hname
    unfold Call.owners at hname
    split at hname
    · cases hname
    · exact List.mem_singleton.1 hname ▸ hcall hc
  have hwork : ∀ {w : Work}, w.isReadable = true → ∀ name ∈ w.identifiers, Text.isFreeName name = true := by
    intro w hw name hname
    cases w with
    | call c => exact List.mem_singleton.1 hname ▸ hcall hw
    | combine f cs =>
      obtain ⟨hf, hcs⟩ := Bool.and_eq_true_iff.1 hw
      rcases List.mem_cons.1 hname with rfl | hname
      · exact hf
      · obtain ⟨c, hc, rfl⟩ := List.mem_map.1 hname
        exact hcall (List.all_eq_true.1 hcs c hc)
  have hfixed : ∀ name ∈ ["isinstance", Alias.decisionSlot, Alias.returnSlot], Text.isFreeName name = true := by decide +kernel
  have htest := hfixed "isinstance" (by decide)
  have hdecision := hfixed Alias.decisionSlot (by decide)
  have hreturn := hfixed Alias.returnSlot (by decide)
  cases s with
  | observe c => exact howners h
  | decide c => exact List.forall_mem_cons.2 ⟨hdecision, howners h⟩
  | leaveOn cls =>
    exact List.forall_mem_cons.2 ⟨htest, List.forall_mem_cons.2 ⟨hdecision, List.forall_mem_singleton.2 h⟩⟩
  | keep w => exact List.forall_mem_cons.2 ⟨hreturn, hwork h⟩
  | replaceOn cls =>
    exact List.forall_mem_cons.2 ⟨htest, List.forall_mem_cons.2 ⟨hdecision, List.forall_mem_cons.2
      ⟨h, List.forall_mem_singleton.2 hreturn⟩⟩⟩
  | finish => exact List.forall_mem_singleton.2 hreturn
  | give w => exact hwork h

/-- The code of a class only reads names that can be written. -/
theorem isFreeName (hk : classOf b = .ok k) (h : k.Reads r) : Text.isFreeName r.name = true := by
  obtain ⟨hfields, hmethods, -⟩ := classOf_eq_ok hk
  have hmethod : ∀ c ∈ k.methods, ∃ m ∈ b.methods, methodOf b m = .ok c := fun c hc =>
    Outcome.exists_mem_of_forall₂ (Outcome.mapM_eq_ok.1 hmethods).flip hc
  cases h with
  | @value done rest line owner hsplit hvalue =>
    obtain ⟨f, -, hline⟩ := Outcome.exists_mem_of_forall₂ (Outcome.mapM_eq_ok.1 hfields).flip
      (show line ∈ k.fields from hsplit ▸ List.mem_append_right _ List.mem_cons_self)
    exact isFreeName_of_copied hline hvalue
  | @default done rest c f reader param name function hsplit hf hdefault hname =>
    obtain ⟨m, -, hmc⟩ := hmethod c (hsplit ▸ List.mem_append_right _ List.mem_cons_self)
    obtain ⟨-, -, -, hformals, -⟩ := methodOf_eq_ok hmc
    rcases param_of_formalsOf hformals hf with ⟨-, hnone⟩ | ⟨_, p, -, hpf⟩
    · cases hnone.symm.trans hdefault
    · obtain ⟨hreader, hhead⟩ := isFreeName_of_readBack hpf hdefault
      rcases List.mem_cons.1 hname with rfl | hname
      · exact hreader
      · exact List.mem_singleton.1 hname ▸ hhead
  | @body c name hc hname =>
    obtain ⟨m, -, hmc⟩ := hmethod c hc
    obtain ⟨-, -, -, -, hbody⟩ := methodOf_eq_ok hmc
    obtain ⟨s, hs, hname⟩ := List.mem_flatMap.1 hname
    exact isFreeName_of_identifiers (List.all_eq_true.1 (isReadable_of_bodyOf hbody) s hs) name hname

end Class.Reads

end Source

/--
Every symbol of a blueprint that is built has a name in its code, tried for its own name, which no other symbol has, nor the
composite. An import binds that name, and the table that code is run with has the object under it. The name is an identifier
exactly if the symbol's own name spells one, and no class changes it exactly if it ends with two underscores where it begins with
two; a class that is named by underscores alone changes none. Where the code of the class reads it, it can be written, and nothing
that is bound nearer is spelled like it. It refers to a name of the module exactly if it is read as that name, and nothing that is
bound nearer is. So it refers to its own if it begins with no underscore and no characters are composed.
-/
theorem Blueprint.alias_refers_iff {b : Blueprint} (built : b.IsBuilt) {path : String} {ref : SymbolRef} (he : (path, ref) ∈ b.symbols)
    (compose : String → String) : ∃ a n, b.aliases.get? path = some a ∧ a = Alias.nth (Alias.seed ref) n ∧
      (∀ other, b.aliases.get? other = some a → other = path) ∧ a ≠ b.name ∧
      (∀ i, Source.importOf b path ref = .ok i → i.boundAs = a) ∧
      (∀ w names, Session.seed w b = .ok names → ∃ v, Session.valueAt w b path ref = .ok v ∧ names.get? a = some v) ∧
      (Text.isIdentifier a = true ↔ ref.IsSpellable) ∧
      (∀ owner, Text.privateName owner a = a ↔
        (a.startsWith "__" = true → a.endsWith "__" = true) ∨ owner.toList.all (· == '_') = true) ∧
      ∀ k, Source.classOf b = .ok k → ∀ r, k.Reads r → r.name = a →
        Text.isFreeName a = true ∧ a ∉ r.bound ∧
        (∀ name, r.RefersTo compose b.name name ↔
          Text.readIn compose b.name a = name ∧ name ∉ r.given ∧ ∀ n ∈ r.bound, Text.readIn compose b.name n ≠ name) ∧
        (a.toList.head? ≠ some '_' → (∀ n ∈ a :: r.bound, compose n = n) → r.RefersTo compose b.name a) := by
  obtain ⟨a, hname⟩ := built.aliased he
  obtain ⟨⟨n, htried⟩, -⟩ := built.tried he hname
  have hfresh := built.fresh hname
  refine ⟨a, n, hname, htried, fun other hother => built.injective hother hname, ?_, fun i hi => ?_, fun w names hseed => ?_, ?_,
    fun owner => ?_, fun k hk r hr hread => ?_⟩
  · rintro rfl
    exact hfresh (List.mem_append_left _ (List.mem_append_left _ (List.mem_append_right _ (List.mem_singleton_self _))))
  · unfold Source.importOf at hi
    split at hi
    · cases hi
    · obtain ⟨boundAs, hbound, hi⟩ := Outcome.bind_eq_ok.1 hi
      obtain ⟨_, -, hi⟩ := Outcome.bind_eq_ok.1 hi
      cases hi
      exact Option.some.inj ((Source.aliasOf_eq_ok.1 hbound).symm.trans hname)
  · obtain ⟨name, v, hname', hv, hget⟩ := (Session.seedFrom_eq_ok hseed built.distinct built.injective).1 _ he
    cases hname.symm.trans hname'
    exact ⟨v, hv, hget⟩
  · rw [htried, Alias.isIdentifier_nth_iff (Alias.seed_ne_empty ref), Alias.isIdentifier_seed_iff]
  · exact Text.privateName_eq_self_iff (htried ▸ Alias.undotted_nth ref n)
  · have hbound : a ∉ r.bound := fun hmem => hfresh (hr.reserved_of_bound hk a hmem)
    subst hread
    exact ⟨hr.isFreeName hk, hbound, fun name => Source.Reading.refersTo_iff,
      fun head composed => Source.Reading.refersTo_of_head head composed hr.head_given hbound⟩

/-- A cart, and two classes whose descriptors are copied; one of them has a name that is private in every class. -/
def wardrobe : List Manifest :=
  [{ ref := ⟨"shop", "Cart"⟩ },
    { ref := ⟨"shop", "__Rebate"⟩, fields := [{ name := "limit", isDescriptor := true }] },
    { ref := ⟨"shop", "Voucher"⟩, fields := [{ name := "bonus", isDescriptor := true }] }]

def bundle : Request where
  name := "Bundle"
  base := .text "shop:Cart"
  mixins := [.text "shop:__Rebate", .text "shop:Voucher"]

/-- The limit is looked for where no name of the module is, and the bonus where it should be. -/
theorem Blueprint.alias_refers_iff_wardrobe : ∃ b k, b.IsBuilt ∧ Source.classOf b = .ok k ∧
    (∃ r, k.Reads r ∧ b.aliases.get? "shop:__Rebate" = some r.name ∧ ¬r.RefersTo id b.name r.name) ∧
    ∃ r, k.Reads r ∧ b.aliases.get? "shop:Voucher" = some r.name ∧ r.RefersTo id b.name r.name := by
  have hruns : (((build (Provider.ofManifests wardrobe) Session.defaults false bundle).runFrom { provider := () }).1.toOption.bind
      fun b => (Source.classOf b).toOption.map fun k => (b.name, b.symbols, b.aliases, k.fields.drop 1)) =
      some ("Bundle", [("shop:Cart", ⟨"shop", "Cart"⟩), ("shop:__Rebate", ⟨"shop", "__Rebate"⟩), ("shop:Voucher", ⟨"shop", "Voucher"⟩)],
        [("shop:Cart", "Cart"), ("shop:__Rebate", "__Rebate"), ("shop:Voucher", "Voucher")],
        [{ name := "limit", value := some (.copied "__Rebate") }, { name := "bonus", value := some (.copied "Voucher") }]) := by
    decide +kernel
  generalize hbuild : (build (Provider.ofManifests wardrobe) Session.defaults false bundle).runFrom { provider := () } = built at hruns
  obtain ⟨outcome, t⟩ := built
  obtain ⟨b, hb, hruns⟩ := Option.bind_eq_some_iff.1 hruns
  obtain ⟨k, hk, hfacts⟩ := Option.map_eq_some_iff.1 hruns
  obtain rfl := Outcome.eq_ok_of_toOption hb
  have hk := Outcome.eq_ok_of_toOption hk
  obtain ⟨hname, hfacts⟩ := Prod.mk.inj hfacts
  obtain ⟨hsymbols, hfacts⟩ := Prod.mk.inj hfacts
  obtain ⟨haliases, hdrop⟩ := Prod.mk.inj hfacts
  have built : b.IsBuilt := ⟨_, _, _, _, _, _, _, hbuild⟩
  have hfields := List.take_append_drop 1 k.fields
  rw [hdrop] at hfields
  have hlimit : k.Reads ⟨"__Rebate", k.given, Source.boundBy (k.fields.take 1)⟩ := .value hfields.symm rfl
  have hbonus : k.Reads ⟨"Voucher", k.given,
      Source.boundBy (k.fields.take 1 ++ [{ name := "limit", value := some (.copied "__Rebate") }])⟩ :=
    .value (by rw [List.append_assoc]; exact hfields.symm) rfl
  have hrebate : b.aliases.get? "shop:__Rebate" = some "__Rebate" := haliases ▸ rfl
  have hvoucher : b.aliases.get? "shop:Voucher" = some "Voucher" := haliases ▸ rfl
  refine ⟨b, k, built, hk, ⟨_, hlimit, hrebate, fun hrefers => ?_⟩, _, hbonus, hvoucher, ?_⟩
  · have hsymbol : ("shop:__Rebate", (⟨"shop", "__Rebate"⟩ : SymbolRef)) ∈ b.symbols := by rw [hsymbols]; decide
    obtain ⟨a, _, ha, -, -, -, -, -, -, -, hreads⟩ := Blueprint.alias_refers_iff built hsymbol id
    cases ha.symm.trans hrebate
    have hread : Text.readIn id b.name "__Rebate" = "__Rebate" := (((hreads k hk _ hlimit rfl).2.2.1 _).1 hrefers).1
    rw [hname] at hread
    exact absurd hread (by decide +kernel)
  · have hsymbol : ("shop:Voucher", (⟨"shop", "Voucher"⟩ : SymbolRef)) ∈ b.symbols := by rw [hsymbols]; decide
    obtain ⟨a, _, ha, -, -, -, -, -, -, -, hreads⟩ := Blueprint.alias_refers_iff built hsymbol id
    cases ha.symm.trans hvoucher
    exact (hreads k hk _ hbonus rfl).2.2.2 (by decide) fun _ _ => rfl

end Amalgam
