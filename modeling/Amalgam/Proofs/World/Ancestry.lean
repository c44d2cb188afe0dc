import Amalgam.Proofs.World.Running
import Amalgam.World.Creation

/-!
# Classes and their ancestors

The order in which a class and its ancestors are searched keeps the order of each of its bases, and that of the bases
themselves (`Linearization.merge?_spec`). So a class cannot be made if one of its bases is an ancestor of a base listed
after it (`World.create_of_contained`). In a world whose classes were made one after another, to be an ancestor is a partial
order (`World.IsOrdered`): the basic classes are ordered, and every new class leaves the world so.
-/

namespace Amalgam

/-! ## Merging orders -/

namespace Linearization

theorem candidate?_eq_some {lists : List (List Nat)} {c : Nat} (h : candidate? lists = some c) :
    (∃ l ∈ lists, l.head? = some c) ∧ ∀ l ∈ lists, c ∉ l.tail := by
  refine ⟨List.mem_filterMap.1 (List.mem_of_find?_eq_some h), fun l hl => ?_⟩
  have hall := List.find?_some (p := fun c => lists.all fun l => !l.tail.contains c) h
  simpa using List.all_eq_true.1 hall l hl

/-- A list without its head, if that is the one dropped, is empty or among the lists that are left. -/
theorem mem_dropHead {c : Nat} {lists : List (List Nat)} {l : List Nat} :
    l ∈ dropHead c lists ↔ l ≠ [] ∧ ∃ l' ∈ lists, l = if l'.head? = some c then l'.tail else l' := by
  simp only [dropHead, List.mem_filter, List.mem_map, Bool.not_eq_true']
  grind

/-- Where no list has a head left, nothing goes on. -/
theorem merge?_cons {fuel : Nat} {lists : List (List Nat)} {merged : List Nat} (h : merge? (fuel + 1) lists = some merged)
    (hne : lists ≠ []) : ∃ c rest, candidate? lists = some c ∧ merge? fuel (dropHead c lists) = some rest ∧
      merged = c :: rest := by
  rw [merge?, if_neg (by simpa using hne)] at h
  obtain ⟨c, hc, h⟩ := Option.bind_eq_some_iff.1 h
  obtain ⟨rest, hrest, rfl⟩ := Option.map_eq_some_iff.1 h
  exact ⟨c, rest, hc, hrest, rfl⟩

theorem merge?_nil {fuel : Nat} {merged : List Nat} (h : merge? fuel [] = some merged) : merged = [] := by
  cases fuel <;> simpa [merge?, eq_comm] using h

/-- A merged order has nothing twice, has nothing but what stands in some list, and keeps the order of every list. -/
theorem merge?_spec {fuel : Nat} {lists : List (List Nat)} {merged : List Nat} (h : merge? fuel lists = some merged) :
    merged.Nodup ∧ (∀ a ∈ merged, ∃ l ∈ lists, a ∈ l) ∧ ∀ l ∈ lists, l.Sublist merged := by
  induction fuel generalizing lists merged with
  | zero =>
    cases lists with
    | nil =>
      obtain rfl := merge?_nil h
      simp
    | cons l lists => simp [merge?] at h
  | succ fuel ih =>
    by_cases hne : lists = []
    · subst hne
      obtain rfl := merge?_nil h
      simp
    obtain ⟨c, rest, hc, hrest, rfl⟩ := merge?_cons h hne
    obtain ⟨⟨first, hfirst, hhead⟩, hfree⟩ := candidate?_eq_some hc
    obtain ⟨hnodup, hfrom, hkept⟩ := ih hrest
    -- What is left of a list no longer has the class that was taken.
    have hgone : ∀ l ∈ dropHead c lists, c ∉ l := by
      intro l hl hcl
      obtain ⟨-, l', hl', rfl⟩ := mem_dropHead.1 hl
      split at hcl
      · exact hfree l' hl' hcl
      · rename_i hother
        cases l' with
        | nil => cases hcl
        | cons a l' =>
          rcases List.mem_cons.1 hcl with rfl | hcl
          · exact hother rfl
          · exact hfree _ hl' hcl
    refine ⟨List.nodup_cons.2 ⟨fun hmem => ?_, hnodup⟩, fun a ha => ?_, fun l hl => ?_⟩
    · obtain ⟨l, hl, hcl⟩ := hfrom c hmem
      exact hgone l hl hcl
    · rcases List.mem_cons.1 ha with rfl | ha
      · exact ⟨first, hfirst, List.mem_of_head? hhead⟩
      · obtain ⟨l, hl, hal⟩ := hfrom a ha
        obtain ⟨-, l', hl', rfl⟩ := mem_dropHead.1 hl
        refine ⟨l', hl', ?_⟩
        split at hal
        · exact List.mem_of_mem_tail hal
        · exact hal
    · have hleft : ∀ l' : List Nat, l' = (if l.head? = some c then l.tail else l) → l'.Sublist rest := by
        rintro l' hl'
        by_cases hempty : l' = []
        · subst hempty
          exact List.nil_sublist _
        · exact hkept l' (mem_dropHead.2 ⟨hempty, l, hl, hl'⟩)
      have hleft := hleft _ rfl
      split at hleft
      · rename_i hhead
        cases l with
        | nil => cases hhead
        | cons a l =>
          cases hhead
          exact hleft.cons_cons c
      · exact hleft.cons c

/-- The order of a class is the class, and then an order that keeps those of its bases and that of the bases themselves. -/
theorem order?_eq_some {self : Nat} {bases order : List Nat} {orderOf : Nat → List Nat}
    (h : order? self bases orderOf = some order) : ∃ rest, order = self :: rest ∧ rest.Nodup ∧
      (∀ a ∈ rest, a ∈ bases ∨ ∃ b ∈ bases, a ∈ orderOf b) ∧ bases.Sublist rest ∧
      ∀ b ∈ bases, (orderOf b).Sublist rest := by
  obtain ⟨rest, hrest, rfl⟩ := Option.map_eq_some_iff.1 h
  obtain ⟨hnodup, hfrom, hkept⟩ := merge?_spec hrest
  have hlist : ∀ l ∈ bases.map orderOf ++ [bases], l.Sublist rest := by
    intro l hl
    by_cases hempty : l = []
    · subst hempty
      exact List.nil_sublist _
    · exact hkept l (List.mem_filter.2 ⟨hl, by simpa using hempty⟩)
  refine ⟨rest, rfl, hnodup, fun a ha => ?_, hlist _ (List.mem_append_right _ List.mem_cons_self), fun b hb =>
    hlist _ (List.mem_append_left _ (List.mem_map_of_mem hb))⟩
  obtain ⟨l, hl, hal⟩ := hfrom a ha
  rcases List.mem_append.1 (List.mem_filter.1 hl).1 with hl | hl
  · obtain ⟨b, hb, rfl⟩ := List.mem_map.1 hl
    exact Or.inr ⟨b, hb, hal⟩
  · rw [List.mem_singleton.1 hl] at hal
    exact Or.inl hal

/-- Of two that stand in a list once, one comes first. -/
theorem not_sublist_swap {a b : Nat} {l : List Nat} (hnodup : l.Nodup) (hab : [a, b].Sublist l) : ¬[b, a].Sublist l := by
  intro hba
  induction l with
  | nil => cases hab
  | cons x l ih =>
    obtain ⟨hx, hnodup⟩ := List.nodup_cons.1 hnodup
    rcases List.sublist_cons_iff.1 hab with htail | ⟨_, ⟨⟩, hb⟩
    · rcases List.sublist_cons_iff.1 hba with htail' | ⟨_, ⟨⟩, ha⟩
      · exact ih hnodup htail htail'
      · exact hx (htail.subset (List.mem_cons_of_mem _ List.mem_cons_self))
    · rcases List.sublist_cons_iff.1 hba with htail' | ⟨_, ⟨⟩, ha⟩
      · exact hx (htail'.subset (List.mem_cons_of_mem _ List.mem_cons_self))
      · exact hx (ha.subset List.mem_cons_self)

/-- Bases contradict each other if one of them is an ancestor of a base listed after it. -/
theorem order?_eq_none {self a b : Nat} {bases : List Nat} {orderOf : Nat → List Nat} (hlisted : [a, b].Sublist bases)
    (hancestor : [b, a].Sublist (orderOf b)) : order? self bases orderOf = none := by
  cases horder : order? self bases orderOf with
  | none => rfl
  | some order =>
    obtain ⟨rest, -, hnodup, -, hbases, hkept⟩ := order?_eq_some horder
    have hb : b ∈ bases := hlisted.subset (by simp)
    exact absurd (hancestor.trans (hkept b hb)) (not_sublist_swap hnodup (hlisted.trans hbases))

end Linearization

namespace World

variable {w : World}

/-! ## Ancestors -/

/-- To be an ancestor is a partial order among the classes of a world, and each class comes first in its own order. -/
structure IsOrdered (w : World) : Prop where
  own : ∀ id < w.classes.size, (w.order id).head? = some id ∧ (w.order id).Nodup
  bounded : ∀ id < w.classes.size, ∀ a ∈ w.order id, a < w.classes.size
  upward : ∀ id < w.classes.size, ∀ a ∈ w.order id, w.order a ⊆ w.order id
  antisymm : ∀ id < w.classes.size, ∀ a ∈ w.order id, id ∈ w.order a → a = id

theorem isOrdered_fresh : fresh.IsOrdered :=
  ⟨by decide, by decide, by decide, by decide⟩

theorem order_of_not_lt {id : Nat} (h : ¬id < w.classes.size) : w.order id = [] := by
  rw [order, cls, Array.getElem?_eq_none (Nat.le_of_not_lt h)]
  rfl

theorem lt_of_mem_order {id a : Nat} (h : a ∈ w.order id) : id < w.classes.size :=
  Decidable.byContradiction fun hid => by simp [order_of_not_lt hid] at h

namespace IsOrdered

variable (h : w.IsOrdered)

include h

theorem order_eq {id : Nat} (hid : id < w.classes.size) : w.order id = id :: (w.order id).tail := by
  have hhead := (h.own id hid).1
  cases horder : w.order id with
  | nil => simp [horder] at hhead
  | cons a rest =>
    rw [horder] at hhead
    obtain rfl := Option.some.inj hhead
    rfl

/-- The ancestors of a class are the others of its order. -/
theorem mem_tail_iff {id a : Nat} : a ∈ (w.order id).tail ↔ a ∈ w.order id ∧ a ≠ id := by
  by_cases hid : id < w.classes.size
  · have hnodup := (h.own id hid).2
    rw [h.order_eq hid] at hnodup ⊢
    have hself := (List.nodup_cons.1 hnodup).1
    rw [List.tail_cons, List.mem_cons]
    grind
  · simp [order_of_not_lt hid]

theorem order_subset {id a : Nat} (ha : a ∈ w.order id) : w.order a ⊆ w.order id := h.upward id (lt_of_mem_order ha) a ha

theorem eq_of_mem_order {id a : Nat} (ha : a ∈ w.order id) (hid : id ∈ w.order a) : a = id :=
  h.antisymm id (lt_of_mem_order ha) a ha hid

/-- A class whose order is found leaves a world ordered. -/
theorem push {d : Draft} {order : List Nat} (known : ∀ b ∈ d.parents, b < w.classes.size)
    (horder : Linearization.order? w.classes.size d.parents w.order = some order) :
    IsOrdered { w with classes := w.classes.push (d.toClass w order) } := by
  obtain ⟨rest, rfl, hnodup, hfrom, hbases, hkept⟩ := Linearization.order?_eq_some horder
  generalize hw' : ({ w with classes := w.classes.push (d.toClass w (w.classes.size :: rest)) } : World) = w'
  have hsize : w'.classes.size = w.classes.size + 1 := by
    rw [← hw']
    exact Array.size_push _
  have hold : ∀ id < w.classes.size, w'.order id = w.order id := fun id hid => by
    rw [← hw']
    exact congrArg Class.order (cls_push_of_lt _ hid)
  have hnew : w'.order w.classes.size = w.classes.size :: rest := by
    rw [← hw']
    exact congrArg Class.order (cls_push_self w _)
  have hrest : ∀ a ∈ rest, a < w.classes.size ∧ w.order a ⊆ rest := by
    intro a ha
    rcases hfrom a ha with ha | ⟨b, hb, ha⟩
    · exact ⟨known a ha, (hkept a ha).subset⟩
    · exact ⟨h.bounded b (known b hb) a ha, fun c hc => (hkept b hb).subset (h.upward b (known b hb) a ha hc)⟩
  have hcases : ∀ id < w'.classes.size, id < w.classes.size ∨ id = w.classes.size := fun id hid => by omega
  refine ⟨fun id hid => ?_, fun id hid a ha => ?_, fun id hid a ha => ?_, fun id hid a ha hida => ?_⟩
  · rcases hcases id hid with hid | rfl
    · rw [hold id hid]
      exact h.own id hid
    · rw [hnew]
      exact ⟨rfl, List.nodup_cons.2 ⟨fun hself => Nat.lt_irrefl _ (hrest _ hself).1, hnodup⟩⟩
  · rcases hcases id hid with hid | rfl
    · rw [hold id hid] at ha
      have := h.bounded id hid a ha
      omega
    · rw [hnew] at ha
      rcases List.mem_cons.1 ha with rfl | ha
      · omega
      · have := (hrest a ha).1
        omega
  · rcases hcases id hid with hid | rfl
    · rw [hold id hid] at ha ⊢
      rw [hold a (h.bounded id hid a ha)]
      exact h.upward id hid a ha
    · rw [hnew] at ha ⊢
      rcases List.mem_cons.1 ha with rfl | ha
      · rw [hnew]
        exact List.Subset.refl _
      · rw [hold a (hrest a ha).1]
        exact List.Subset.trans (hrest a ha).2 (List.subset_cons_self _ _)
  · rcases hcases id hid with hid | rfl
    · rw [hold id hid] at ha
      rw [hold a (h.bounded id hid a ha)] at hida
      exact h.antisymm id hid a ha hida
    · rw [hnew] at ha
      rcases List.mem_cons.1 ha with rfl | ha
      · rfl
      · -- The new class is no ancestor of a class that was there before.
        rw [hold a (hrest a ha).1] at hida
        exact absurd (h.bounded a (hrest a ha).1 _ hida) (Nat.lt_irrefl _)

/-- A class cannot be made of bases one of which is an ancestor of a base listed after it. -/
theorem create_of_contained {d : Draft} {a b : Nat} (hlisted : [a, b].Sublist d.parents) (hne : a ≠ b)
    (hancestor : a ∈ w.order b) : (create d).runFrom w = (.error (.fault .type), w) := by
  have hbefore : [b, a].Sublist (w.order b) := by
    rw [h.order_eq (lt_of_mem_order hancestor)]
    exact (List.singleton_sublist.2 (h.mem_tail_iff.2 ⟨hancestor, hne⟩)).cons_cons b
  unfold create
  rw [Act.runFrom_bind, Act.runFrom_get]
  dsimp only
  split
  · rfl
  · rw [Linearization.order?_eq_none hlisted hbefore]
    rfl

end IsOrdered

end World

end Amalgam
