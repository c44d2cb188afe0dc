/-!
The first number from a start on that satisfies a test, among as many as are worth trying.
-/

namespace Amalgam

/-- The first of `fuel` numbers from `n` on that passes, or the one after them. -/
def firstFree (free : Nat → Bool) : (fuel n : Nat) → Nat
  | 0, n => n
  | fuel + 1, n => if free n then n else firstFree free fuel (n + 1)

theorem le_firstFree (free : Nat → Bool) (fuel n : Nat) : n ≤ firstFree free fuel n := by
  induction fuel generalizing n with
  | zero => simp [firstFree]
  | succ fuel ih =>
    simp only [firstFree]
    split
    · exact Nat.le_refl n
    · exact Nat.le_trans (Nat.le_succ n) (ih (n + 1))

theorem firstFree_le (free : Nat → Bool) (fuel n : Nat) : firstFree free fuel n ≤ n + fuel := by
  induction fuel generalizing n with
  | zero => simp [firstFree]
  | succ fuel ih =>
    simp only [firstFree]
    split
    · exact Nat.le_add_right n (fuel + 1)
    · have := ih (n + 1)
      omega

theorem not_free_of_lt_firstFree (free : Nat → Bool) (fuel n k : Nat) (h : n ≤ k) (hk : k < firstFree free fuel n) :
    free k = false := by
  induction fuel generalizing n with
  | zero => simp only [firstFree] at hk; omega
  | succ fuel ih =>
    simp only [firstFree] at hk
    split at hk
    · omega
    · rename_i hn
      rcases Nat.lt_or_ge n k with hlt | hge
      · exact ih (n + 1) hlt hk
      · have : k = n := by omega
        subst this
        simpa using hn

end Amalgam
