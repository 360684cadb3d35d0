import SkynetHotfix.Lib.SqlLiteral

/-!
# Strings for SQL

`string.SQLStr` of `common/base/luaext.lua`, on bytes. It doubles the quotes but
leaves backslashes alone, so its text is a literal of the input up to the
first NUL just when that has no backslash (`SQLStr_iff`).
-/

namespace SkynetHotfix.Luaext

open SqlLiteral

/-- `string.SQLStr(str_in, bNoQuotes)` -/
def SQLStr (str_in : List UInt8) (bNoQuotes : Bool) : List UInt8 :=
  -- `str:gsub( "'", "''" )`
  let str := str_in.flatMap fun c => if c = singleQuote then [singleQuote, singleQuote] else [c]
  let str := match str.findIdx? (· = 0) with
    | some null_chr => str.take null_chr
    | none => str
  if bNoQuotes then str else singleQuote :: (str ++ [singleQuote])

/-- The input up to its first NUL. -/
def upToNul (s : List UInt8) : List UInt8 := s.takeWhile (· ≠ 0)

theorem take_findIdx (s : List UInt8) :
    (match s.findIdx? (· = 0) with
      | some i => s.take i
      | none => s) = upToNul s := by
  induction s with
  | nil => rfl
  | cons c s ih =>
    rw [List.findIdx?_cons]
    by_cases hc : c = 0
    · simp [hc, upToNul]
    · have htake : upToNul (c :: s) = c :: upToNul s :=
        List.takeWhile_cons_of_pos (by simpa using hc)
      rw [htake, ← ih]
      cases s.findIdx? (· = 0) <;> simp [hc]

/-- A quote is not NUL, so it makes no difference which comes first. -/
theorem upToNul_doubled (s : List UInt8) : upToNul (doubled s) = doubled (upToNul s) := by
  induction s with
  | nil => rfl
  | cons c s ih =>
    by_cases hq : c = singleQuote
    · subst hq
      have h₁ : upToNul (singleQuote :: singleQuote :: doubled s) =
          singleQuote :: singleQuote :: upToNul (doubled s) := rfl
      have h₂ : upToNul (singleQuote :: s) = singleQuote :: upToNul s := rfl
      rw [doubled_cons_quote, h₁, h₂, doubled_cons_quote, ih]
    · rw [doubled_cons hq]
      by_cases hc : c = 0
      · subst hc
        rfl
      · have htake : ∀ s, upToNul (c :: s) = c :: upToNul s := fun s =>
          List.takeWhile_cons_of_pos (by simpa using hc)
        rw [htake, htake, doubled_cons hq, ih]

theorem SQLStr_eq (s : List UInt8) :
    SQLStr s false = singleQuote :: (doubled (upToNul s) ++ [singleQuote]) := by
  rw [← upToNul_doubled, ← take_findIdx]
  rfl

/-- The text is one complete literal that denotes the input up to its first NUL, just when there is
no backslash in that. -/
theorem SQLStr_iff (escaped : UInt8 → UInt8) (s : List UInt8) :
    literal escaped (SQLStr s false) = some (upToNul s, []) ↔ backslash ∉ upToNul s := by
  rw [SQLStr_eq, literal_doubled_iff]

/-- A backslash at the end leaves the literal open, and one before a quote ends it early. -/
theorem SQLStr_backslash :
    ¬ literal id (SQLStr [backslash] false) = some (upToNul [backslash], []) ∧
      literal id (SQLStr [backslash] false) = none ∧
      literal id (SQLStr [backslash, singleQuote, 45, 45] false) = some ([singleQuote], [45, 45, singleQuote]) := by
  decide

end SkynetHotfix.Luaext
