import Amalgam.Text.CharSet
import Mathlib.Data.List.TakeWhile

/-!
# Texts in pieces

The first piece of a text stands before the first occurrence of the character that it is split at, and the others are the
pieces of what comes after it (`Text.splitOnChar_eq`). What is left without the white space around a text is said by
`Text.IsCore`.
-/

namespace Amalgam.Text

theorem splitList_ne_nil {α : Type} (p : α → Bool) (cs : List α) : splitList p cs ≠ [] := by
  cases cs with
  | nil => exact List.cons_ne_nil _ _
  | cons c rest =>
    unfold splitList
    split
    · exact List.cons_ne_nil _ _
    · split <;> exact List.cons_ne_nil _ _

/-- A list in one piece is that piece. -/
theorem eq_of_splitList {α : Type} {p : α → Bool} {cs piece : List α} (h : splitList p cs = [piece]) : piece = cs := by
  induction cs generalizing piece with
  | nil => exact (List.singleton_inj.1 h).symm
  | cons c rest ih =>
    unfold splitList at h
    split at h
    · exact absurd (List.cons.inj h).2 (splitList_ne_nil p rest)
    · cases hrest : splitList p rest with
      | nil => exact absurd hrest (splitList_ne_nil p rest)
      | cons head pieces =>
        rw [hrest] at h
        obtain ⟨rfl, rfl⟩ := List.cons.inj h
        rw [ih hrest]

theorem eq_of_splitOnChar {sep : Char} {s piece : String} (h : splitOnChar sep s = [piece]) : piece = s := by
  unfold splitOnChar at h
  obtain ⟨cs, hcs, rfl⟩ := List.map_eq_singleton_iff.1 h
  rw [eq_of_splitList hcs, String.ofList_toList]

theorem splitList_eq {α : Type} (p : α → Bool) (cs : List α) : splitList p cs =
    (cs.takeWhile fun c => !p c) :: match cs.dropWhile fun c => !p c with
      | [] => []
      | _ :: after => splitList p after := by
  induction cs with
  | nil => rfl
  | cons c rest ih =>
    rw [splitList]
    cases hc : p c with
    | true => simp [hc]
    | false =>
      rw [ih]
      simp [hc]

theorem splitOnChar_eq (sep : Char) (s : String) : splitOnChar sep s =
    String.ofList (s.toList.takeWhile (· != sep)) :: match s.toList.dropWhile (· != sep) with
      | [] => []
      | _ :: after => splitOnChar sep (String.ofList after) := by
  have hne : (fun c => !(c == sep)) = fun c => c != sep := rfl
  rw [splitOnChar, splitList_eq, hne, List.map_cons]
  cases s.toList.dropWhile (· != sep) with
  | nil => rfl
  | cons c after =>
    dsimp only
    rw [splitOnChar, String.toList_ofList]

/-- A text that does not have the character is one piece. -/
theorem splitOnChar_of_not_mem {sep : Char} {s : String} (h : sep ∉ s.toList) : splitOnChar sep s = [s] := by
  have hall : ∀ c ∈ s.toList, (c != sep) = true := fun c hc => bne_iff_ne.2 fun he => h (he ▸ hc)
  rw [splitOnChar_eq, List.dropWhile_eq_nil_iff.2 hall, List.takeWhile_eq_self_iff.2 hall, String.ofList_toList]

/-- What stands before the first occurrence of a character is one piece. -/
theorem splitOnChar_takeWhile (sep : Char) (cs : List Char) :
    splitOnChar sep (String.ofList (cs.takeWhile (· != sep))) = [String.ofList (cs.takeWhile (· != sep))] := by
  rw [splitOnChar_eq, String.toList_ofList, List.takeWhile_idem,
    List.dropWhile_eq_nil_iff.2 fun _ => List.mem_takeWhile_imp]

/-! ## Without the white space around it -/

theorem dropWhile_append_of_head {α : Type} {p : α → Bool} {front rest : List α} (front_all : ∀ x ∈ front, p x = true)
    (head : ∀ x, rest.head? = some x → p x = false) : (front ++ rest).dropWhile p = rest := by
  rw [List.dropWhile_append_of_pos front_all]
  cases rest with
  | nil => rfl
  | cons x rest =>
    have hx : ¬p x = true := by rw [head x rfl]; exact Bool.false_ne_true
    rw [List.dropWhile_cons_of_neg hx]

theorem takeWhile_append_of_head {α : Type} {p : α → Bool} {front rest : List α} (front_all : ∀ x ∈ front, p x = true)
    (head : ∀ x, rest.head? = some x → p x = false) : (front ++ rest).takeWhile p = front := by
  rw [List.takeWhile_append_of_pos front_all]
  cases rest with
  | nil => rw [List.takeWhile_nil, List.append_nil]
  | cons x rest =>
    have hx : ¬p x = true := by rw [head x rfl]; exact Bool.false_ne_true
    rw [List.takeWhile_cons_of_neg hx, List.append_nil]

theorem eq_false_of_head?_dropWhile {α : Type} {p : α → Bool} {cs : List α} {x : α}
    (h : (cs.dropWhile p).head? = some x) : p x = false := by
  have hnot := List.head?_dropWhile_not p cs
  rw [h] at hnot
  exact hnot

/-- What is left of a text without the white space around it: it neither begins nor ends with any. -/
structure IsCore (text core : List Char) : Prop where
  around : ∃ front back, text = front ++ core ++ back ∧ (∀ c ∈ front, isBlank c = true) ∧ ∀ c ∈ back, isBlank c = true
  head : ∀ c, core.head? = some c → isBlank c = false
  last : ∀ c, core.getLast? = some c → isBlank c = false

theorem isCore_trimList (text : List Char) : IsCore text (trimList isBlank text) := by
  have hback : trimList isBlank text ++ ((text.dropWhile isBlank).reverse.takeWhile isBlank).reverse =
      text.dropWhile isBlank := by
    rw [trimList, ← List.reverse_append, List.takeWhile_append_dropWhile, List.reverse_reverse]
  refine ⟨⟨text.takeWhile isBlank, ((text.dropWhile isBlank).reverse.takeWhile isBlank).reverse, ?_, ?_, ?_⟩, ?_, ?_⟩
  · rw [List.append_assoc, hback, List.takeWhile_append_dropWhile]
  · exact fun c hc => List.mem_takeWhile_imp hc
  · exact fun c hc => List.mem_takeWhile_imp (List.mem_reverse.1 hc)
  · intro c hc
    have hhead : (text.dropWhile isBlank).head? = some c := by
      rw [← hback, List.head?_append, hc]
      rfl
    exact eq_false_of_head?_dropWhile hhead
  · intro c hc
    rw [trimList, List.getLast?_reverse] at hc
    exact eq_false_of_head?_dropWhile hc

theorem IsCore.eq_trimList {text core : List Char} (h : IsCore text core) : core = trimList isBlank text := by
  obtain ⟨front, back, rfl, hfront, hback⟩ := h.around
  have hlast : ∀ c, core.reverse.head? = some c → isBlank c = false := fun c hc =>
    h.last c (by rwa [List.head?_reverse] at hc)
  have hback' : ∀ c ∈ back.reverse, isBlank c = true := fun c hc => hback c (List.mem_reverse.1 hc)
  rw [trimList, List.append_assoc, List.dropWhile_append_of_pos hfront]
  cases core with
  | nil => rw [List.nil_append, List.dropWhile_eq_nil_iff.2 hback]; rfl
  | cons c core =>
    have hcore : (c :: core ++ back).dropWhile isBlank = c :: core ++ back :=
      dropWhile_append_of_head (List.forall_mem_nil _) h.head
    rw [hcore, List.reverse_append, dropWhile_append_of_head hback' hlast, List.reverse_reverse]

theorem isCore_iff {text core : List Char} : IsCore text core ↔ core = trimList isBlank text :=
  ⟨IsCore.eq_trimList, fun h => h ▸ isCore_trimList text⟩

/-- A text with nothing around it is its own core. -/
theorem isCore_self {cs : List Char} (head : ∀ c, cs.head? = some c → isBlank c = false)
    (last : ∀ c, cs.getLast? = some c → isBlank c = false) : IsCore cs cs :=
  ⟨⟨[], [], by simp, by simp, by simp⟩, head, last⟩

end Amalgam.Text
