import Amalgam.Proofs.World.Declaring
import Mathlib.Data.List.TakeDrop

/-!
# The order of declarations

A class stores values under some names and annotates some names, each in an order of its own. Its declarations keep both orders,
as far as the second tells of names without a value, and such a name comes right before the first value that is stored for a
name annotated later (`World.IsDeclarationOrder`). What the walk along the stored names passes and meets among the annotated
ones is told by `World.Walks`, whichever of the two orders is followed.
-/

namespace Amalgam.World

/-! ## Names in a row -/

/-- One name comes somewhere before another. -/
def Precedes (names : List String) (first second : String) : Prop := [first, second].Sublist names

section Precedes

variable {names names' : List String} {first second : String}

theorem Precedes.mem_left (h : Precedes names first second) : first ∈ names := h.subset List.mem_cons_self

theorem Precedes.mem_right (h : Precedes names first second) : second ∈ names :=
  h.subset (List.mem_cons_of_mem _ List.mem_cons_self)

@[simp] theorem not_precedes_nil : ¬Precedes [] first second := fun h => List.not_mem_nil h.mem_left

theorem precedes_cons_iff {name : String} :
    Precedes (name :: names) first second ↔ first = name ∧ second ∈ names ∨ Precedes names first second := by
  unfold Precedes
  rw [List.cons_sublist_cons', List.singleton_sublist, or_comm]

theorem precedes_append_iff : Precedes (names ++ names') first second ↔
    Precedes names first second ∨ first ∈ names ∧ second ∈ names' ∨ Precedes names' first second := by
  induction names with
  | nil => simp
  | cons name names ih =>
    rw [List.cons_append, precedes_cons_iff, precedes_cons_iff, ih, List.mem_append, List.mem_cons, and_or_left, or_and_right]
    simp only [or_assoc, or_left_comm]

theorem Precedes.of_filter {p : String → Bool} (heq : names.filter p = names'.filter p) (hfirst : p first = true)
    (hsecond : p second = true) (h : Precedes names first second) : Precedes names' first second := by
  have hkeeps : [first, second].Sublist (names.filter p) := by
    have := List.Sublist.filter p h
    rwa [List.filter_cons_of_pos hfirst, List.filter_cons_of_pos hsecond, List.filter_nil] at this
  rw [heq] at hkeeps
  exact hkeeps.trans List.filter_sublist

/-- One of two names comes first. -/
theorem precedes_or_precedes (hfirst : first ∈ names) (hsecond : second ∈ names) (hne : first ≠ second) :
    Precedes names first second ∨ Precedes names second first := by
  induction names with
  | nil => exact absurd hfirst List.not_mem_nil
  | cons name names ih =>
    rw [precedes_cons_iff, precedes_cons_iff]
    rcases List.mem_cons.1 hfirst with rfl | hfirst'
    · exact Or.inl (Or.inl ⟨rfl, (List.mem_cons.1 hsecond).resolve_left hne.symm⟩)
    · rcases List.mem_cons.1 hsecond with rfl | hsecond'
      · exact Or.inr (Or.inl ⟨rfl, hfirst'⟩)
      · exact (ih hfirst' hsecond').imp Or.inr Or.inr

theorem Precedes.trans (distinct : names.Nodup) {third : String} (h : Precedes names first second)
    (h' : Precedes names second third) : Precedes names first third := by
  induction names with
  | nil => exact absurd h not_precedes_nil
  | cons name names ih =>
    obtain ⟨hfresh, distinct⟩ := List.nodup_cons.1 distinct
    rw [precedes_cons_iff] at h h' ⊢
    rcases h' with ⟨rfl, hthird⟩ | h'
    · rcases h with ⟨rfl, hsecond⟩ | h
      · exact absurd hsecond hfresh
      · exact absurd h.mem_right hfresh
    · exact h.imp (fun h => ⟨h.1, h'.mem_right⟩) fun h => ih distinct h h'

theorem not_precedes_self (distinct : names.Nodup) : ¬Precedes names first first := fun h => by
  simpa using distinct.sublist h

end Precedes

/-! ## The walk along the stored names -/

variable {hinted stored ahead names order : List String}

/-- Those of some names that have no value. -/
def bareOf (stored names : List String) : List String := names.filter fun name => !stored.contains name

theorem mem_bareOf {name : String} : name ∈ bareOf stored names ↔ name ∈ names ∧ name ∉ stored := by
  simp [bareOf]

/--
The annotated names ahead, the stored names to go, and the names that come of them. A stored name that is not ahead comes
alone; one that is ahead takes along the names without a value up to it.
-/
inductive Walks (stored : List String) : (ahead names order : List String) → Prop where
  | done {ahead : List String} : Walks stored ahead [] (bareOf stored ahead)
  | pass {ahead names order : List String} {name : String} (absent : name ∉ ahead) (rest : Walks stored ahead names order) :
    Walks stored ahead (name :: names) (name :: order)
  | meet {before later names order : List String} {name : String} (rest : Walks stored later names order) :
    Walks stored (before ++ name :: later) (name :: names) (bareOf stored before ++ name :: order)

theorem walks_orderFrom (distinct : hinted.Nodup) (cursor : Nat) (names : List String) :
    Walks stored (hinted.drop cursor) names (orderFrom hinted stored cursor names) := by
  induction names generalizing cursor with
  | nil => exact .done
  | cons name rest ih =>
    unfold orderFrom
    split
    · rename_i hplace
      refine .pass (fun hmem => ?_) (ih cursor)
      have hne := List.findIdx?_eq_none_iff.1 hplace name (List.mem_of_mem_drop hmem)
      simp at hne
    · rename_i place hplace
      obtain ⟨hlt, hat, -⟩ := List.findIdx?_eq_some_iff_getElem.1 hplace
      have hname : hinted[place] = name := beq_iff_eq.1 hat
      by_cases hcursor : cursor ≤ place
      · have hsplit : hinted.drop cursor = (hinted.take place).drop cursor ++ name :: hinted.drop (place + 1) := by
          rw [← hname, ← List.drop_eq_getElem_cons hlt, ← List.drop_append_of_le_length (by simp; omega),
            List.take_append_drop]
        rw [hsplit, Nat.max_eq_right (by omega)]
        exact .meet (ih (place + 1))
      · -- The name was annotated before names that the walk has met already.
        have hnone : (hinted.take place).drop cursor = [] := List.drop_eq_nil_of_le (by simp; omega)
        have habsent : name ∉ hinted.drop cursor := by
          refine (List.disjoint_take_drop distinct (Nat.le_refl cursor)) ?_
          rw [← hname]
          exact List.mem_take_iff_getElem.2 ⟨place, by omega, rfl⟩
        rw [hnone, Nat.max_eq_left (by omega)]
        exact .pass habsent (ih cursor)

/-- The names with a value come in their own order. -/
theorem Walks.stored_eq (h : Walks stored ahead names order) (sub : names ⊆ stored) :
    order.filter stored.contains = names := by
  have hbare : ∀ l, (bareOf stored l).filter stored.contains = [] := by
    intro l
    rw [bareOf, List.filter_filter]
    exact List.filter_eq_nil_iff.2 fun name _ => by simp
  induction h with
  | done => exact hbare _
  | pass absent rest ih =>
    obtain ⟨hname, hrest⟩ := List.cons_subset.1 sub
    rw [List.filter_cons_of_pos (by simpa using hname), ih hrest]
  | meet rest ih =>
    obtain ⟨hname, hrest⟩ := List.cons_subset.1 sub
    rw [List.filter_append, hbare, List.nil_append, List.filter_cons_of_pos (by simpa using hname), ih hrest]

/-- The names without a value come in the order of their annotations. -/
theorem Walks.bare_eq (h : Walks stored ahead names order) (sub : names ⊆ stored) :
    bareOf stored order = bareOf stored ahead := by
  have hbare : ∀ l, bareOf stored (bareOf stored l) = bareOf stored l := fun l => by simp [bareOf]
  have hcons : ∀ {name}, name ∈ stored → ∀ l, bareOf stored (name :: l) = bareOf stored l := fun hname l =>
    List.filter_cons_of_neg (by simpa using hname)
  have happend : ∀ l l', bareOf stored (l ++ l') = bareOf stored l ++ bareOf stored l' := fun l l' => List.filter_append ..
  induction h with
  | done => exact hbare _
  | pass absent rest ih =>
    obtain ⟨hname, hrest⟩ := List.cons_subset.1 sub
    rw [hcons hname, ih hrest]
  | meet rest ih =>
    obtain ⟨hname, hrest⟩ := List.cons_subset.1 sub
    rw [happend, happend, hbare, hcons hname, hcons hname, ih hrest]

theorem Walks.mem_of_stored (h : Walks stored ahead names order) (sub : names ⊆ stored) {name : String}
    (hname : name ∈ stored) : name ∈ order ↔ name ∈ names := by
  have hmem : name ∈ order.filter stored.contains ↔ name ∈ order := by simp [hname]
  rw [← hmem, h.stored_eq sub]

/-- A name without a value comes before a stored one exactly if this or a name stored before it is annotated later. -/
theorem Walks.precedes_iff (h : Walks stored ahead names order) (distinct : ahead.Nodup) (distinct' : names.Nodup)
    (sub : names ⊆ stored) {bare kept : String} (hbare : bare ∉ stored) (hkept : kept ∈ stored) :
    Precedes order bare kept ↔ ∃ later ∈ names, Precedes ahead bare later ∧ (later = kept ∨ Precedes names later kept) := by
  induction h with
  | done =>
    refine iff_of_false (fun hp => (mem_bareOf.1 hp.mem_right).2 hkept) ?_
    rintro ⟨later, hlater, -⟩
    exact List.not_mem_nil hlater
  | @pass ahead names order name absent rest ih =>
    obtain ⟨hname, hrest⟩ := List.cons_subset.1 sub
    obtain ⟨hfresh, hnodup⟩ := List.nodup_cons.1 distinct'
    have hne : bare ≠ name := fun he => hbare (he ▸ hname)
    rw [precedes_cons_iff, ih distinct hnodup hrest]
    constructor
    · rintro (⟨he, -⟩ | ⟨later, hlater, hp, hthen⟩)
      · exact absurd he hne
      · exact ⟨later, List.mem_cons_of_mem _ hlater, hp, hthen.imp_right fun h => precedes_cons_iff.2 (Or.inr h)⟩
    · rintro ⟨later, hlater, hp, hthen⟩
      have hne' : later ≠ name := fun he => absent (he ▸ hp.mem_right)
      refine Or.inr ⟨later, (List.mem_cons.1 hlater).resolve_left hne', hp, hthen.imp_right fun h => ?_⟩
      exact (precedes_cons_iff.1 h).resolve_left fun h => hne' h.1
  | @meet before later names order name rest ih =>
    obtain ⟨hname, hrest⟩ := List.cons_subset.1 sub
    obtain ⟨hfresh, hnodup⟩ := List.nodup_cons.1 distinct'
    obtain ⟨-, hahead, hapart⟩ := List.nodup_append.1 distinct
    obtain ⟨hgone, hlater⟩ := List.nodup_cons.1 hahead
    have hne : bare ≠ name := fun he => hbare (he ▸ hname)
    have hcome : kept ∈ name :: order ↔ kept ∈ name :: names := by
      rw [List.mem_cons, List.mem_cons, rest.mem_of_stored hrest hkept]
    rw [precedes_append_iff, precedes_cons_iff, ih hlater hnodup hrest, mem_bareOf, hcome]
    constructor
    · rintro (hp | ⟨⟨hbefore, -⟩, hk⟩ | ⟨he, -⟩ | ⟨m, hm, hp, hthen⟩)
      · exact absurd hkept (mem_bareOf.1 hp.mem_right).2
      · refine ⟨name, List.mem_cons_self, precedes_append_iff.2 (Or.inr (Or.inl ⟨hbefore, List.mem_cons_self⟩)), ?_⟩
        exact (List.mem_cons.1 hk).imp Eq.symm fun h => precedes_cons_iff.2 (Or.inl ⟨rfl, h⟩)
      · exact absurd he hne
      · refine ⟨m, List.mem_cons_of_mem _ hm, ?_, hthen.imp_right fun h => precedes_cons_iff.2 (Or.inr h)⟩
        exact precedes_append_iff.2 (Or.inr (Or.inr (precedes_cons_iff.2 (Or.inr hp))))
    · rintro ⟨m, hm, hp, hthen⟩
      have hk : kept ∈ name :: names := by
        rcases hthen with rfl | h
        · exact hm
        · exact h.mem_right
      by_cases hbefore : bare ∈ before
      · exact Or.inr (Or.inl ⟨⟨hbefore, hbare⟩, hk⟩)
      · -- What is annotated behind the name is met behind it, so the walk goes on from there.
        have hp : Precedes later bare m := by
          rcases precedes_append_iff.1 hp with h | h | h
          · exact absurd h.mem_left hbefore
          · exact absurd h.1 hbefore
          · exact (precedes_cons_iff.1 h).resolve_left fun h => hne h.1
        have hne' : m ≠ name := fun he => hgone (he ▸ hp.mem_right)
        refine Or.inr (Or.inr (Or.inr ⟨m, (List.mem_cons.1 hm).resolve_left hne', hp, hthen.imp_right fun h => ?_⟩))
        exact (precedes_cons_iff.1 h).resolve_left fun h => hne' h.1

/-! ## The declarations of a class -/

/-- An order of the names that a class stores or annotates. -/
structure IsDeclarationOrder (stored hinted order : List String) : Prop where
  /-- No name comes twice. -/
  nodup : order.Nodup
  /-- Every name comes. -/
  mem_iff (name : String) : name ∈ order ↔ name ∈ stored ∨ name ∈ hinted
  /-- The names with a value come in the order of their values. -/
  stored_eq : order.filter stored.contains = stored
  /-- The others come in the order of their annotations. -/
  bare_eq : bareOf stored order = bareOf stored hinted
  /-- A name without a value comes before every name with one that is annotated later. -/
  precedes {bare later : String} (hbare : bare ∉ stored) (hlater : later ∈ stored) (h : Precedes hinted bare later) :
    Precedes order bare later
  /-- It comes before no other names with a value but those that are stored behind such a name. -/
  exists_of_precedes {bare kept : String} (hbare : bare ∉ stored) (hkept : kept ∈ stored) (h : Precedes order bare kept) :
    ∃ later ∈ stored, Precedes hinted bare later ∧ (later = kept ∨ Precedes stored later kept)

section Unique

variable {order' : List String} (h : IsDeclarationOrder stored hinted order) (h' : IsDeclarationOrder stored hinted order')

include h h'

theorem IsDeclarationOrder.precedes_of_bare {bare kept : String} (hbare : bare ∉ stored) (hkept : kept ∈ stored)
    (hp : Precedes order bare kept) : Precedes order' bare kept := by
  obtain ⟨later, hlater, hhinted, rfl | hstored⟩ := h.exists_of_precedes hbare hkept hp
  · exact h'.precedes hbare hlater hhinted
  · have hthen : Precedes order' later kept := by
      rw [← h'.stored_eq] at hstored
      exact List.Sublist.trans hstored List.filter_sublist
    exact (h'.precedes hbare hlater hhinted).trans h'.nodup hthen

theorem IsDeclarationOrder.precedes_of_precedes {first second : String} (hp : Precedes order first second) :
    Precedes order' first second := by
  by_cases hfirst : first ∈ stored
  · by_cases hsecond : second ∈ stored
    · exact hp.of_filter (h.stored_eq.trans h'.stored_eq.symm) (by simpa using hfirst) (by simpa using hsecond)
    · have hmem : ∀ {name}, name ∈ order → name ∈ order' := fun {name} hname => (h'.mem_iff name).2 ((h.mem_iff name).1 hname)
      refine (precedes_or_precedes (hmem hp.mem_left) (hmem hp.mem_right) ?_).resolve_right fun hback => ?_
      · rintro rfl
        exact hsecond hfirst
      · exact not_precedes_self h.nodup (hp.trans h.nodup (h'.precedes_of_bare h hsecond hfirst hback))
  · by_cases hsecond : second ∈ stored
    · exact h.precedes_of_bare h' hfirst hsecond hp
    · exact hp.of_filter (h.bare_eq.trans h'.bare_eq.symm) (by simpa using hfirst) (by simpa using hsecond)

/-- There is one such order only. -/
theorem IsDeclarationOrder.unique : order = order' := by
  have hperm : order.Perm order' :=
    (List.perm_ext_iff_of_nodup h.nodup h'.nodup).2 fun name => (h.mem_iff name).trans (h'.mem_iff name).symm
  have hantisymm : ∀ a b, a ∈ order → b ∈ order' → Precedes order a b → Precedes order b a → a = b :=
    fun a b _ _ hab hba => absurd (hab.trans h.nodup hba) (not_precedes_self h.nodup)
  exact hperm.eq_of_pairwise hantisymm (List.pairwise_iff_forall_sublist.2 id)
    (List.pairwise_iff_forall_sublist.2 (h'.precedes_of_precedes h))

end Unique

theorem isDeclarationOrder_orderFrom (distinct : stored.Nodup) (distinct' : hinted.Nodup) :
    IsDeclarationOrder stored hinted (orderFrom hinted stored 0 stored) := by
  have hwalks := @walks_orderFrom hinted stored distinct' 0 stored
  rw [List.drop_zero] at hwalks
  have hsub := List.Subset.refl stored
  have hperm : (stored ++ bareOf stored hinted).Perm (orderFrom hinted stored 0 stored) := by
    have := List.filter_append_perm stored.contains (orderFrom hinted stored 0 stored)
    rwa [hwalks.stored_eq hsub, show List.filter _ _ = _ from hwalks.bare_eq hsub] at this
  refine ⟨hperm.nodup_iff.1 ?_, fun name => ?_, hwalks.stored_eq hsub, hwalks.bare_eq hsub, fun hbare hlater h => ?_,
    fun hbare hkept h => (hwalks.precedes_iff distinct' distinct hsub hbare hkept).1 h⟩
  · refine List.nodup_append'.2 ⟨distinct, distinct'.filter _, fun name hstored hbare => ?_⟩
    exact (mem_bareOf.1 hbare).2 hstored
  · rw [← hperm.mem_iff, List.mem_append, mem_bareOf]
    by_cases hstored : name ∈ stored <;> simp [hstored]
  · exact (hwalks.precedes_iff distinct' distinct hsub hbare hlater).2 ⟨_, hlater, h, Or.inl rfl⟩

/--
The declarations of a class are the names that it stores or annotates, each once, in both orders; so along any ancestry, a
manifest tells of no name twice.
-/
theorem declared_once :
    (∀ c : Class, c.slots.keys.Nodup → c.hints.keys.Nodup →
      IsDeclarationOrder c.slots.keys c.hints.keys (declarationOrder c)) ∧
    ∀ (w : World) (id : Nat) (r : SymbolRef) (sets : List SymbolRef),
      ((w.inspect id r sets).members.map Signature.name ++ (w.inspect id r sets).fields.map Field.name).Nodup :=
  ⟨fun _ distinct distinct' => isDeclarationOrder_orderFrom distinct distinct', fun _ => nodup_names_inspect⟩

/-- A class that stores two names in the other order than it annotates them, with a name between them. -/
def shelf : Class where
  name := "Shelf"
  qualname := "Shelf"
  home := "shop"
  slots := [("second", .value (.int 2)), ("loose", .value .none), ("first", .value (.int 1))]
  hints := [("early", .type "int"), ("first", .type "int"), ("pending", .type "int"), ("second", .type "str"), ("late", .type "str")]

/-- The name between the two comes before both, since the second is stored first. -/
theorem declared_once_shelf : declarationOrder shelf = ["early", "pending", "second", "loose", "first", "late"] ∧
    IsDeclarationOrder shelf.slots.keys shelf.hints.keys ["early", "pending", "second", "loose", "first", "late"] := by
  have horder : declarationOrder shelf = ["early", "pending", "second", "loose", "first", "late"] := by decide
  exact ⟨horder, horder ▸ declared_once.1 shelf (by decide) (by decide)⟩

end Amalgam.World
