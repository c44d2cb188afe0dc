import Amalgam.World.Inspection
import Mathlib.Data.List.Nodup
import Mathlib.Tactic.ByContra

/-!
# What a manifest says of a class

A name stands for the first declaration that the class or one of its ancestors makes of it (`World.declaration?`), and a
manifest has these declarations and no others (`World.mem_members_inspect`). Where a class and its ancestors store
nothing but methods under a name, the method that the manifest has is the one that the class finds
(`World.slot?_of_declaration?`).
-/

namespace Amalgam

namespace World

/-- What a declaration adds, if anything. -/
def Declared.some? : Declared → Option Declared
  | .nothing => none
  | d => some d

def Declared.member? : Declared → Option Signature
  | .member s => some s
  | _ => none

def Declared.field? : Declared → Option Field
  | .field f => some f
  | _ => none

/-- The name under which a declaration is added. -/
def Declared.name? : Declared → Option String
  | .member s => some s.name
  | .field f => some f.name
  | .nothing => none

end World

open World (Declared)

theorem List.filter_eq_find?_of_nodup {α : Type} {f : α → String} {l : List α} (distinct : (l.map f).Nodup) (name : String) :
    l.filter (fun a => f a == name) = (l.find? fun a => f a == name).toList := by
  induction l with
  | nil => rfl
  | cons a l ih =>
    obtain ⟨ha, distinct⟩ := List.nodup_cons.1 distinct
    by_cases hname : f a = name
    · have hrest : l.filter (fun b => f b == name) = [] := by
        refine List.filter_eq_nil_iff.2 fun b hb hbname => ha ?_
        rw [hname, ← eq_of_beq hbname]
        exact List.mem_map_of_mem hb
      simp [hname, hrest]
    · simp [hname, ih distinct]

/-- What a manifest has under a name. -/
def Manifest.declared? (m : Manifest) (name : String) : Option Declared :=
  ((m.members.find? (·.name == name)).map Declared.member).or ((m.fields.find? (·.name == name)).map Declared.field)

namespace World

variable {w : World}

/-- The names of the ancestors of a class, its own first. -/
def ownersOf (w : World) (id : Nat) : List String := (w.lineage id).map fun a => (w.cls a).name

/-- The declaration of a name that counts. -/
def declaration? (w : World) (id : Nat) (name : String) : Option Declared :=
  if bookkeepingNames.contains name then none
  else (w.lineage id).findSome? fun a => (w.declared (w.ownersOf id) (w.cls a) name).some?

/-! ## The names that a class declares -/

theorem mem_orderFrom_of_stored {hinted stored names : List String} {name : String} (h : name ∈ names) (cursor : Nat) :
    name ∈ orderFrom hinted stored cursor names := by
  induction names generalizing cursor with
  | nil => exact absurd h List.not_mem_nil
  | cons first rest ih =>
    unfold orderFrom
    rcases List.mem_cons.1 h with rfl | h
    · split <;> simp
    · split <;> simp [ih h]

/-- A name that is annotated is met before the cursor passes it, or stored. -/
theorem mem_orderFrom_of_hinted {hinted stored names : List String} {name : String} (hfree : name ∉ stored)
    (hsub : names ⊆ stored) {cursor : Nat} (h : name ∈ hinted.drop cursor) :
    name ∈ orderFrom hinted stored cursor names := by
  induction names generalizing cursor with
  | nil => simp [orderFrom, h, hfree]
  | cons first rest ih =>
    obtain ⟨hfirst, hrest⟩ := List.cons_subset.1 hsub
    unfold orderFrom
    split
    · simp [ih hrest h]
    · rename_i place hplace
      obtain ⟨i, hi, rfl⟩ := List.mem_iff_getElem.1 h
      rw [List.getElem_drop] at *
      rw [List.length_drop] at hi
      obtain ⟨hlt, hat, -⟩ := List.findIdx?_eq_some_iff_getElem.1 hplace
      have hne : cursor + i ≠ place := by
        rintro rfl
        exact hfree (by simpa using (beq_iff_eq.1 hat) ▸ hfirst)
      by_cases hbefore : cursor + i < place
      · refine List.mem_append_left _ (List.mem_filter.2 ⟨?_, by simpa using hfree⟩)
        refine List.mem_iff_getElem.2 ⟨i, by simp; omega, by simp⟩
      · refine List.mem_append_right _ (List.mem_cons_of_mem _ (ih hrest ?_))
        refine List.mem_iff_getElem.2 ⟨cursor + i - max cursor (place + 1), by simp; omega, ?_⟩
        rw [List.getElem_drop]
        congr 1
        omega

theorem declared_of_not_mem {owners : List String} {c : Class} {name : String} (h : name ∉ declarationOrder c) :
    w.declared owners c name = .nothing := by
  have hslot : c.slots.get? name = none :=
    (Entries.get?_eq_none_iff _ _).2 fun hmem => h (mem_orderFrom_of_stored hmem 0)
  have hhint : c.hints.get? name = none := (Entries.get?_eq_none_iff _ _).2 fun hmem =>
    h (mem_orderFrom_of_hinted ((Entries.get?_eq_none_iff _ _).1 hslot) (List.Subset.refl _) hmem)
  simp [declared, hslot, hhint]

/-- A declaration is made under its own name. -/
theorem name_of_declared {owners : List String} {c : Class} {name other : String}
    (h : (w.declared owners c name).name? = some other) : other = name := by
  have hfield : ∀ hint v, (w.fieldOf owners name hint v).name? = some other → other = name := by
    intro hint v h
    unfold fieldOf at h
    split at h
    · cases h
    · exact (Option.some.inj h).symm
  unfold declared at h
  dsimp only at h
  split at h
  · split at h
    · exact (Option.some.inj h).symm
    · cases h
  · exact (Option.some.inj h).symm
  · exact hfield _ _ h
  · split at h
    · exact (Option.some.inj h).symm
    · cases h
  · split at h
    · split at h
      · cases h
      · exact (Option.some.inj h).symm
    · cases h

/-- Apart from the reserved one, no field has a special name. -/
theorem not_special_of_declared {owners : List String} {c : Class} {name : String} {f : Field}
    (h : w.declared owners c name = .field f) (hname : name ≠ reservedField) : isSpecialName name = false := by
  have hreserved : (name != reservedField) = true := bne_iff_ne.2 hname
  unfold declared fieldOf at h
  dsimp only at h
  rw [hreserved, Bool.true_and] at h
  cases hspecial : isSpecialName name with
  | false => rfl
  | true =>
    rw [hspecial] at h
    split at h
    · split at h <;> cases h
    · cases h
    · cases h
    · rw [if_neg (by simpa using hname)] at h
      cases h
    · split at h <;> cases h

/-! ## What a manifest has -/

theorem declared?_eq_none_iff {m : Manifest} {name : String} :
    m.declared? name = none ↔ name ∉ m.members.map Signature.name ∧ name ∉ m.fields.map Field.name := by
  simp [Manifest.declared?]

/-- A declaration is added under its name if that is new. -/
theorem declared?_addDeclared {m : Manifest} {name : String} {d : Declared} (named : ∀ n ∈ d.name?, n = name)
    (other : String) :
    (addDeclared m name d).declared? other = if other = name then (m.declared? name).or d.some? else m.declared? other := by
  have hknown : ((m.members.map Signature.name).contains name || (m.fields.map Field.name).contains name) = true ↔
      m.declared? name ≠ none := by
    rw [Ne, declared?_eq_none_iff, Bool.or_eq_true, List.contains_iff_mem, List.contains_iff_mem, ← not_or, not_not]
  unfold addDeclared
  by_cases hnew : m.declared? name = none
  · rw [if_neg (mt hknown.1 (not_not.2 hnew)), hnew, Option.none_or]
    obtain ⟨hmembers, hfields⟩ := declared?_eq_none_iff.1 hnew
    have hmembers : m.members.find? (·.name == name) = none := by simpa using hmembers
    have hfields : m.fields.find? (·.name == name) = none := by simpa using hfields
    by_cases hother : other = name
    · rw [if_pos hother, hother]
      cases d with
      | member s => simp [Manifest.declared?, hmembers, Declared.some?, named _ rfl]
      | field f => simp [Manifest.declared?, hmembers, hfields, Declared.some?, named _ rfl]
      | nothing => exact hnew
    · rw [if_neg hother]
      cases d with
      | member s => simp [Manifest.declared?, List.find?_append, named _ rfl, Ne.symm hother]
      | field f => simp [Manifest.declared?, List.find?_append, named _ rfl, Ne.symm hother]
      | nothing => rfl
  · rw [if_pos (hknown.2 hnew)]
    obtain ⟨e, he⟩ := Option.ne_none_iff_exists'.1 hnew
    by_cases hother : other = name
    · rw [if_pos hother, hother, he, Option.some_or]
    · rw [if_neg hother]

theorem declared?_addClass (owners : List String) (m : Manifest) (c : Class) (name : String) :
    (w.addClass owners m c).declared? name =
      if bookkeepingNames.contains name then m.declared? name
      else (m.declared? name).or (w.declared owners c name).some? := by
  have hfold : ∀ (names : List String) (m : Manifest),
      (names.foldl (fun m name => addDeclared m name (w.declared owners c name)) m).declared? name =
        if name ∈ names then (m.declared? name).or (w.declared owners c name).some? else m.declared? name := by
    intro names
    induction names with
    | nil => simp
    | cons first rest ih =>
      intro m
      rw [List.foldl_cons, ih, declared?_addDeclared fun n hn => name_of_declared hn]
      by_cases hfirst : name = first
      · subst hfirst
        simp [Option.or_assoc]
      · simp [hfirst]
  unfold addClass
  rw [hfold]
  by_cases hmem : name ∈ declarationOrder c
  · by_cases hbook : name ∈ bookkeepingNames
    · simp [hbook]
    · simp [hmem, hbook]
  · simp [hmem, declared_of_not_mem hmem, Declared.some?]

/-- A manifest has under each name the declaration that counts. -/
theorem declared?_inspect (id : Nat) (r : SymbolRef) (sets : List SymbolRef) (name : String) :
    (w.inspect id r sets).declared? name = w.declaration? id name := by
  have hline : ∀ (line : List Nat) (m : Manifest),
      (line.foldl (fun m a => w.addClass (w.ownersOf id) m (w.cls a)) m).declared? name =
        (m.declared? name).or (if bookkeepingNames.contains name then none
          else line.findSome? fun a => (w.declared (w.ownersOf id) (w.cls a) name).some?) := by
    intro line
    induction line with
    | nil => simp
    | cons a line ih =>
      intro m
      rw [List.foldl_cons, ih, declared?_addClass]
      split
      · rfl
      · rw [Option.or_assoc, List.findSome?_cons]
        cases (w.declared (w.ownersOf id) (w.cls a) name).some? <;> rfl
  refine (hline (w.lineage id) { ref := r, capabilitySets := sets }).trans ?_
  rw [declaration?]
  rfl

theorem nodup_names_addDeclared {m : Manifest} {name : String} {d : Declared} (named : ∀ n ∈ d.name?, n = name)
    (h : (m.members.map Signature.name ++ m.fields.map Field.name).Nodup) :
    ((addDeclared m name d).members.map Signature.name ++ (addDeclared m name d).fields.map Field.name).Nodup := by
  unfold addDeclared
  split
  · exact h
  · rename_i hnew
    simp only [Bool.or_eq_true, List.contains_iff_mem, ← List.mem_append] at hnew
    cases d with
    | member s =>
      obtain rfl : s.name = name := named _ rfl
      rw [List.map_append, List.map_singleton, List.append_assoc, List.singleton_append, List.nodup_middle]
      exact List.nodup_cons.2 ⟨hnew, h⟩
    | field f =>
      obtain rfl : f.name = name := named _ rfl
      rw [List.map_append, List.map_singleton, ← List.append_assoc, List.nodup_middle, List.append_nil]
      exact List.nodup_cons.2 ⟨hnew, h⟩
    | nothing => exact h

/-- No name stands for two of the members and fields of a manifest. -/
theorem nodup_names_inspect (id : Nat) (r : SymbolRef) (sets : List SymbolRef) :
    ((w.inspect id r sets).members.map Signature.name ++ (w.inspect id r sets).fields.map Field.name).Nodup := by
  have hclass : ∀ (owners : List String) (c : Class) (m : Manifest),
      (m.members.map Signature.name ++ m.fields.map Field.name).Nodup →
      ((w.addClass owners m c).members.map Signature.name ++ (w.addClass owners m c).fields.map Field.name).Nodup := by
    intro owners c
    unfold addClass
    generalize (declarationOrder c).filter _ = names
    induction names with
    | nil => exact fun m h => h
    | cons name names ih => exact fun m h => ih _ (nodup_names_addDeclared (fun n hn => name_of_declared hn) h)
  have hline : ∀ (owners : List String) (line : List Nat) (m : Manifest),
      (m.members.map Signature.name ++ m.fields.map Field.name).Nodup →
      ((line.foldl (fun m a => w.addClass owners m (w.cls a)) m).members.map Signature.name ++
        (line.foldl (fun m a => w.addClass owners m (w.cls a)) m).fields.map Field.name).Nodup := by
    intro owners line
    induction line with
    | nil => exact fun m h => h
    | cons a line ih => exact fun m h => ih _ (hclass owners _ m h)
  exact hline _ _ _ List.nodup_nil

/-- Of a name, a manifest has the member or the field that counts, and no other. -/
theorem named_of_inspect (id : Nat) (r : SymbolRef) (sets : List SymbolRef) (name : String) :
    ((w.inspect id r sets).members.filter fun s => s.name == name) =
        ((w.declaration? id name).bind Declared.member?).toList ∧
      ((w.inspect id r sets).fields.filter fun f => f.name == name) =
        ((w.declaration? id name).bind Declared.field?).toList := by
  have hcounts := declared?_inspect (w := w) id r sets name
  obtain ⟨hmembers, hfields, hapart⟩ := List.nodup_append.1 (nodup_names_inspect (w := w) id r sets)
  rw [List.filter_eq_find?_of_nodup hmembers, List.filter_eq_find?_of_nodup hfields, ← hcounts]
  unfold Manifest.declared?
  cases hs : (w.inspect id r sets).members.find? fun s => s.name == name with
  | none =>
    cases hf : (w.inspect id r sets).fields.find? fun f => f.name == name with
    | none => exact ⟨rfl, rfl⟩
    | some f => exact ⟨rfl, rfl⟩
  | some s =>
    cases hf : (w.inspect id r sets).fields.find? fun f => f.name == name with
    | none => exact ⟨rfl, rfl⟩
    | some f =>
      have hsame : s.name = f.name :=
        (eq_of_beq (List.find?_some (p := fun s : Signature => s.name == name) hs)).trans
          (eq_of_beq (List.find?_some (p := fun f : Field => f.name == name) hf)).symm
      exact absurd hsame (hapart _ (List.mem_map_of_mem (List.mem_of_find?_eq_some hs)) _
        (List.mem_map_of_mem (List.mem_of_find?_eq_some hf)))

/-- The members of a manifest are the methods whose declarations count. -/
theorem mem_members_inspect {id : Nat} {r : SymbolRef} {sets : List SymbolRef} {s : Signature} :
    s ∈ (w.inspect id r sets).members ↔ w.declaration? id s.name = some (.member s) := by
  have hmem : s ∈ (w.inspect id r sets).members ↔ s ∈ (w.inspect id r sets).members.filter (·.name == s.name) := by
    simp [List.mem_filter]
  rw [hmem, (named_of_inspect id r sets s.name).1]
  cases w.declaration? id s.name with
  | none => simp
  | some d => cases d <;> simp [Declared.member?, eq_comm]

/-- The fields of a manifest are those whose declarations count. -/
theorem mem_fields_inspect {id : Nat} {r : SymbolRef} {sets : List SymbolRef} {f : Field} :
    f ∈ (w.inspect id r sets).fields ↔ w.declaration? id f.name = some (.field f) := by
  have hmem : f ∈ (w.inspect id r sets).fields ↔ f ∈ (w.inspect id r sets).fields.filter (·.name == f.name) := by
    simp [List.mem_filter]
  rw [hmem, (named_of_inspect id r sets f.name).2]
  cases w.declaration? id f.name with
  | none => simp
  | some d => cases d <;> simp [Declared.field?, eq_comm]

theorem exists_declared_of_declaration? {id : Nat} {name : String} {d : Declared} (h : w.declaration? id name = some d) :
    name ∉ bookkeepingNames ∧ ∃ a ∈ w.lineage id, w.declared (w.ownersOf id) (w.cls a) name = d := by
  unfold declaration? at h
  split at h
  · cases h
  · rename_i hbook
    obtain ⟨a, ha, hd⟩ := List.exists_of_findSome?_eq_some h
    refine ⟨by simpa using hbook, a, ha, ?_⟩
    cases hdeclared : w.declared (w.ownersOf id) (w.cls a) name <;> simp_all [Declared.some?]

/-- Of a name under which a class itself stores a method, its manifest has that method and no other member. -/
theorem mem_members_iff_of_own {id f : Nat} {rest : List Nat} {name : String} {kind : MemberKind} {F : Function}
    (hbook : name ∉ bookkeepingNames) (hline : w.lineage id = id :: rest)
    (hslot : (w.cls id).slots.get? name = some (.routine kind f)) (hF : w.function? f = some F) {r : SymbolRef}
    {sets : List SymbolRef} {s : Signature} : s ∈ (w.inspect id r sets).members ∧ s.name = name ↔
      s = w.signatureOf (w.ownersOf id) name kind F := by
  have hdeclared : w.declared (w.ownersOf id) (w.cls id) name = .member (w.signatureOf (w.ownersOf id) name kind F) := by
    simp only [declared, hslot, hF]
  have hcounts : w.declaration? id name = some (.member (w.signatureOf (w.ownersOf id) name kind F)) := by
    unfold declaration?
    rw [hline, List.findSome?_cons, hdeclared]
    simp [hbook, Declared.some?]
  rw [mem_members_inspect]
  constructor
  · rintro ⟨hs, hname⟩
    rw [hname, hcounts] at hs
    cases hs
    rfl
  · rintro rfl
    exact ⟨hcounts, rfl⟩

/-! ## What a class finds -/

/-- Whatever is stored under a name by a class and its ancestors is a method; by the mark classes nothing is. -/
structure StoresMethods (w : World) (id : Nat) (name : String) : Prop where
  methods : ∀ a ∈ w.order id, ∀ slot, (w.cls a).slots.get? name = some slot →
    ∃ kind f F, slot = .routine kind f ∧ w.function? f = some F
  marks : ∀ a ∈ w.order id, a ∉ w.lineage id → (w.cls a).slots.get? name = none

/-- Among classes that store methods at most, the first declaration of a method is the first thing stored. -/
theorem findSome?_slots_of_declared {owners : List String} {name : String} {s : Signature} {declares : Nat → Bool}
    {order : List Nat} (methods : ∀ a ∈ order, ∀ slot, (w.cls a).slots.get? name = some slot →
      ∃ kind f F, slot = .routine kind f ∧ w.function? f = some F)
    (marks : ∀ a ∈ order, declares a = false → (w.cls a).slots.get? name = none)
    (h : ((order.filter declares).findSome? fun a => (w.declared owners (w.cls a) name).some?) = some (.member s)) :
    ∃ kind f F, (order.findSome? fun a => (w.cls a).slots.get? name) = some (.routine kind f) ∧
      w.function? f = some F ∧ s = w.signatureOf owners name kind F := by
  induction order with
  | nil => cases h
  | cons a order ih =>
    rw [List.findSome?_cons]
    cases hslot : (w.cls a).slots.get? name with
    | some slot =>
      obtain ⟨kind, f, F, rfl, hF⟩ := methods a List.mem_cons_self slot hslot
      have hdeclares : declares a = true := by
        by_contra hmark
        rw [marks a List.mem_cons_self (by simpa using hmark)] at hslot
        cases hslot
      rw [List.filter_cons_of_pos hdeclares, List.findSome?_cons] at h
      simp only [declared, hslot, hF, Declared.some?] at h
      cases h
      exact ⟨kind, f, F, rfl, hF, rfl⟩
    | none =>
      refine ih (fun b hb => methods b (List.mem_cons_of_mem _ hb)) (fun b hb => marks b (List.mem_cons_of_mem _ hb)) ?_
      by_cases hdeclares : declares a = true
      · rw [List.filter_cons_of_pos hdeclares, List.findSome?_cons] at h
        have hnot : ∀ s, w.declared owners (w.cls a) name ≠ .member s := by
          intro s hs
          simp only [declared, hslot] at hs
          split at hs
          · split at hs <;> cases hs
          · cases hs
        cases hdeclared : w.declared owners (w.cls a) name with
        | member s => exact absurd hdeclared (hnot s)
        | field f => simp [hdeclared, Declared.some?] at h
        | nothing => simpa [hdeclared, Declared.some?] using h
      · rwa [List.filter_cons_of_neg hdeclares] at h

/-- The method that a manifest has under a name is the one that the class finds. -/
theorem slot?_of_declaration? {id : Nat} {name : String} {s : Signature} (stores : w.StoresMethods id name)
    (h : w.declaration? id name = some (.member s)) : ∃ kind f F, w.slot? id name = some (.routine kind f) ∧
      w.function? f = some F ∧ s = w.signatureOf (w.ownersOf id) name kind F := by
  unfold declaration? at h
  split at h
  · cases h
  · refine findSome?_slots_of_declared stores.methods (fun a ha hmark => stores.marks a ha ?_) h
    intro hmem
    rw [lineage, List.mem_filter, hmark] at hmem
    exact Bool.noConfusion hmem.2

end World

end Amalgam
