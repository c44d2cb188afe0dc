import Amalgam.Text.Name

/-!
# Character classes

The classes of characters beyond the first 128 are given by runs. `RunSet.within` goes through the runs of two of them and
tells whether one lies in the other, so that an inclusion need not be tested character by character. Names are put together
of characters that may stand in them.
-/

namespace Amalgam.Text

/-- Whether every run of a set lies inside a run of another one. -/
def RunSet.within : (fuel : Nat) → List Nat → List Nat → Bool
  | fuel + 1, outside :: inside :: rest, outside' :: inside' :: rest' =>
    if outside' + inside' ≤ outside then within fuel ((outside - (outside' + inside')) :: inside :: rest) rest'
    else outside' ≤ outside && outside + inside ≤ outside' + inside' &&
      within fuel rest (0 :: (outside' + inside' - (outside + inside)) :: rest')
  | _, [], _ => true
  | _, [_], _ => true
  | _, _, _ => false

theorem RunSet.mem_of_within {fuel : Nat} {runs runs' : List Nat} (h : within fuel runs runs' = true) {n : Nat}
    (hn : mem runs n = true) : mem runs' n = true := by
  fun_induction within fuel runs runs' generalizing n with
  | case1 fuel outside inside rest outside' inside' rest' hlate ih =>
    -- The run of the other set ends before the next one begins.
    have hshift := @ih h (n - (outside' + inside'))
    simp only [mem_cons_cons, Bool.and_eq_true, Bool.or_eq_true, decide_eq_true_eq] at hn hshift ⊢
    refine ⟨by omega, Or.inr (hshift ⟨by omega, ?_⟩)⟩
    refine hn.2.imp (fun hlt => by omega) fun hrest => ?_
    rwa [show n - (outside' + inside') - (outside - (outside' + inside') + inside) = n - (outside + inside) by omega]
  | case2 fuel outside inside rest outside' inside' rest' hlate ih =>
    simp only [Bool.and_eq_true, decide_eq_true_eq] at h
    have hshift := @ih h.2 (n - (outside + inside))
    simp only [mem_cons_cons, Bool.and_eq_true, Bool.or_eq_true, decide_eq_true_eq] at hn hshift ⊢
    refine ⟨by omega, ?_⟩
    by_cases hlt : n < outside + inside
    · exact Or.inl (by omega)
    · refine (hshift (hn.2.resolve_left hlt)).2.imp (fun hlt => by omega) fun hrest => ?_
      rwa [show n - (outside' + inside') =
        n - (outside + inside) - (0 + (outside' + inside' - (outside + inside))) by omega]
  | case3 fuel runs => cases hn
  | case4 fuel outside runs => cases hn
  | case5 => cases h

/-- What may begin a name may also follow in it. -/
theorem isNameContinue_of_isNameStart {c : Char} (h : isNameStart c = true) : isNameContinue c = true := by
  unfold isNameStart at h
  unfold isNameContinue
  split at h
  · rename_i hlow
    rw [if_pos hlow]
    simp only [Bool.or_eq_true, Char.isAlphanum] at h ⊢
    exact h.imp_left Or.inl
  · rename_i hhigh
    rw [if_neg hhigh]
    have hwithin : RunSet.within 2000 Tables.nameStart Tables.nameContinue = true := by decide +kernel
    exact RunSet.mem_of_within hwithin h

/-! ## Identifiers -/

theorem isNameContinue_of_mem {s : String} (h : isIdentifier s = true) {c : Char} (hc : c ∈ s.toList) :
    isNameContinue c = true := by
  unfold isIdentifier at h
  split at h
  · cases h
  · rename_i start rest hlist
    rw [Bool.and_eq_true, List.all_eq_true] at h
    rw [hlist] at hc
    rcases List.mem_cons.1 hc with rfl | hc
    · exact isNameContinue_of_isNameStart h.1
    · exact h.2 c hc

theorem isIdentifier_ofList_iff {c : Char} {cs : List Char} : isIdentifier (String.ofList (c :: cs)) = true ↔
    isNameStart c = true ∧ ∀ x ∈ cs, isNameContinue x = true := by
  unfold isIdentifier
  rw [String.toList_ofList]
  dsimp only
  rw [Bool.and_eq_true, List.all_eq_true]

/-- Where something is appended to a name, all of that may follow in it. -/
theorem isIdentifier_append_iff {s t : String} (hs : s ≠ "") : isIdentifier (s ++ t) = true ↔
    isIdentifier s = true ∧ ∀ c ∈ t.toList, isNameContinue c = true := by
  unfold isIdentifier
  rw [String.toList_append]
  cases hlist : s.toList with
  | nil => exact absurd (String.toList_eq_nil_iff.1 hlist) hs
  | cons c rest =>
    dsimp only [List.cons_append]
    rw [List.all_append, Bool.and_eq_true, Bool.and_eq_true, Bool.and_eq_true, List.all_eq_true (l := t.toList), and_assoc]

theorem isIdentifier_append {s t : String} (hs : isIdentifier s = true) (ht : ∀ c ∈ t.toList, isNameContinue c = true) :
    isIdentifier (s ++ t) = true := by
  refine (isIdentifier_append_iff ?_).2 ⟨hs, ht⟩
  rintro rfl
  cases hs

theorem isNameContinue_toString (n : Nat) : ∀ c ∈ (toString n).toList, isNameContinue c = true := by
  intro c hc
  have hmem : c ∈ Nat.toDigits 10 n := by simpa using hc
  have hdigit : c.isDigit = true := Nat.isDigit_of_mem_toDigits (by decide) (by decide) hmem
  have hlow : c.toNat < 128 := by
    rw [Char.isDigit, Bool.and_eq_true, decide_eq_true_eq, decide_eq_true_eq] at hdigit
    have : c.val.toNat ≤ 57 := hdigit.2
    show c.val.toNat < 128
    omega
  rw [isNameContinue, if_pos hlow, Char.isAlphanum, hdigit, Bool.or_true, Bool.true_or]

end Amalgam.Text
