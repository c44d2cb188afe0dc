import Amalgam.Text.CharSet

/-!
Texts in columns: how wide characters are, and how far a tab reaches.
-/

namespace Amalgam.Text

/-- Characters that take two columns: East Asian ones and pictures. -/
def isWide (c : Char) : Bool :=
  let n := c.toNat
  (0x1100 ≤ n && n ≤ 0x115F) || n == 0x2705 || n == 0x274C || (0x2E80 ≤ n && n ≤ 0x303E) ||
    (0x3041 ≤ n && n ≤ 0xA4CF) || (0xAC00 ≤ n && n ≤ 0xD7A3) || (0xF900 ≤ n && n ≤ 0xFAFF) ||
    (0xFE30 ≤ n && n ≤ 0xFE6F) || (0xFF00 ≤ n && n ≤ 0xFF60) || (0xFFE0 ≤ n && n ≤ 0xFFE6) ||
    (0x1F300 ≤ n && n ≤ 0x1F64F) || (0x1F900 ≤ n && n ≤ 0x1F9FF) || (0x20000 ≤ n && n ≤ 0x3FFFD)

/-- Characters that take no column of their own. -/
def isNarrowest (c : Char) : Bool :=
  let n := c.toNat
  (0x0300 ≤ n && n ≤ 0x036F) || (0x200B ≤ n && n ≤ 0x200F) || (0xFE00 ≤ n && n ≤ 0xFE0F)

/-- The columns a character takes. -/
def columns (c : Char) : Nat := if isWide c then 2 else if isNarrowest c then 0 else 1

/-- Replaces tabs by blanks up to the next multiple of eight columns, from a column on. -/
def expandTabs : (column : Nat) → List Char → List Char
  | _, [] => []
  | column, c :: rest =>
    if c == '\t' then
      let width := 8 - column % 8
      List.replicate width ' ' ++ expandTabs (column + width) rest
    else c :: expandTabs (column + columns c) rest

/-- The text without white space at its end. -/
def stripEnd (cs : List Char) : List Char := (cs.reverse.dropWhile isBlank).reverse

end Amalgam.Text
