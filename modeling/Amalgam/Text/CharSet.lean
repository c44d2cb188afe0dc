import Amalgam.Text.Tables

/-!
Membership in the character sets of `Amalgam.Text.Tables`, and the character classes built from them.

The main lemma, `RunSet.mem_cons_cons`, reads off one pair of runs.
-/

namespace Amalgam.Text

/-- Reads a list of alternating run lengths, the first run lying outside the set. -/
def RunSet.mem : List Nat → Nat → Bool
  | outside :: inside :: rest, n =>
    if n < outside then false
    else if n < outside + inside then true
    else RunSet.mem rest (n - (outside + inside))
  | _, _ => false

theorem RunSet.mem_cons_cons (outside inside n : Nat) (rest : List Nat) :
    RunSet.mem (outside :: inside :: rest) n =
      (decide (outside ≤ n) && (decide (n < outside + inside) || RunSet.mem rest (n - (outside + inside)))) := by
  simp only [RunSet.mem]
  by_cases h : n < outside
  · simp [h, Nat.not_le.mpr h]
  · by_cases k : n < outside + inside <;> simp [h, k, Nat.not_lt.mp h]

/-- Letters and the underscore: what a name may begin with. -/
def isNameStart (c : Char) : Bool :=
  if c.toNat < 128 then c.isAlpha || c == '_' else RunSet.mem Tables.nameStart c.toNat

/-- What may follow in a name: letters, digits, connecting and combining marks. -/
def isNameContinue (c : Char) : Bool :=
  if c.toNat < 128 then c.isAlphanum || c == '_' else RunSet.mem Tables.nameContinue c.toNat

/-- Letters, numeric characters and the underscore; wider than names (`²`) and narrower (no combining marks). -/
def isWord (c : Char) : Bool :=
  if c.toNat < 128 then c.isAlphanum || c == '_' else RunSet.mem Tables.word c.toNat

/-- Characters with a digit value, in any script, superscripts included. -/
def isDigit (c : Char) : Bool :=
  if c.toNat < 128 then c.isDigit else RunSet.mem Tables.digit c.toNat

/-- Characters that a quoted text shows as themselves. -/
def isPrintable (c : Char) : Bool :=
  if c.toNat < 128 then decide (32 ≤ c.toNat ∧ c.toNat < 127) else RunSet.mem Tables.printable c.toNat

/-- Characters that compatibility composition replaces by others. -/
def isCompatibility (c : Char) : Bool :=
  if c.toNat < 128 then false else RunSet.mem Tables.compatibility c.toNat

/-- White space of any script, with the four separators below the blank. -/
def isBlank (c : Char) : Bool :=
  let n := c.toNat
  (9 ≤ n && n ≤ 13) || (28 ≤ n && n ≤ 32) || n == 0x85 || n == 0xA0 || n == 0x1680 ||
    (0x2000 ≤ n && n ≤ 0x200A) || n == 0x2028 || n == 0x2029 || n == 0x202F || n == 0x205F || n == 0x3000

/-- Drops the characters satisfying `p` at both ends. -/
def trimList (p : Char → Bool) (cs : List Char) : List Char :=
  ((cs.dropWhile p).reverse.dropWhile p).reverse

/-- The text without white space at its ends. -/
def strip (s : String) : String :=
  String.ofList (trimList isBlank s.toList)

/-- The pieces of a list between the elements satisfying `p`; one piece more than there are such elements. -/
def splitList {α : Type} (p : α → Bool) : List α → List (List α)
  | [] => [[]]
  | c :: rest =>
    if p c then [] :: splitList p rest
    else match splitList p rest with
      | [] => [[c]]
      | piece :: pieces => (c :: piece) :: pieces

/-- The pieces of a text between the occurrences of a character. -/
def splitOnChar (sep : Char) (s : String) : List String :=
  (splitList (· == sep) s.toList).map String.ofList

/-- The text before and after the first occurrence of a character, if it occurs. -/
def splitFirst (sep : Char) (s : String) : Option (String × String) :=
  match s.toList.dropWhile (· != sep) with
  | [] => none
  | _ :: after => some (String.ofList (s.toList.takeWhile (· != sep)), String.ofList after)

/-- The text before and after the last occurrence of a character, if it occurs. -/
def splitLast (sep : Char) (s : String) : Option (String × String) :=
  match s.toList.reverse.dropWhile (· != sep) with
  | [] => none
  | _ :: before =>
    some (String.ofList before.reverse, String.ofList (s.toList.reverse.takeWhile (· != sep)).reverse)

end Amalgam.Text
