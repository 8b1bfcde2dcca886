import Mathlib.Data.List.TakeWhile

/-!
# Strings of bytes as C reads them

The text before the first zero byte, the tokens between delimiters, and the character classes of the C locale.
-/

namespace Lib

universe u

/-- What the C functions see of a string. -/
def cString (s : List UInt8) : List UInt8 := s.takeWhile (· ≠ 0)

theorem cString_eq {s : List UInt8} (h : (0 : UInt8) ∉ s) : cString s = s := by
  rw [cString, List.takeWhile_eq_self_iff]
  intro c hc
  exact decide_eq_true fun hzero => h (hzero ▸ hc)

/-- `tolower`. -/
def toLower (c : UInt8) : UInt8 := if 0x41 ≤ c ∧ c ≤ 0x5a then c + 0x20 else c

/-- `isspace`. -/
def isSpace (c : UInt8) : Bool := decide (c = 0x20) || (decide (9 ≤ c) && decide (c ≤ 13))

section Tokens

variable {α : Type u} [DecidableEq α] {delim : α} {s : List α} {words : List (List α)}

/-- The tokens that the calls of `strtok` return one after the other. -/
def tokens (delim : α) (s : List α) : List (List α) := (s.splitOn delim).filter (!·.isEmpty)

theorem tokens_eq_splitOn (h : ∀ word ∈ s.splitOn delim, word ≠ []) : tokens delim s = s.splitOn delim := by
  rw [tokens, List.filter_eq_self]
  intro word hword
  simpa using h word hword

theorem tokens_intercalate (hword : ∀ word ∈ words, word ≠ [] ∧ delim ∉ word) :
    tokens delim ([delim].intercalate words) = words := by
  by_cases hwords : words = []
  · subst words
    simp [tokens]
  · have hsplit : ([delim].intercalate words).splitOn delim = words :=
      List.splitOn_intercalate delim (fun word h => (hword word h).2) hwords
    rw [tokens, hsplit, List.filter_eq_self]
    intro word h
    simpa using (hword word h).1

end Tokens

end Lib
