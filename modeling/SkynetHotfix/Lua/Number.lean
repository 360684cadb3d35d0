import Mathlib.Algebra.Order.Floor.Ring
import Mathlib.Data.Int.Log
import Mathlib.Data.Rat.Floor
import Mathlib.Order.WithBot

/-!
# Lua numbers

Integers have 64 bits and wrap (`wrap`), floats are those of binary64: a sum is rounded to the
nearest, ties to the one with an even last digit (`round`). A sum of an integer and a float is one
of floats.

As the key of a table, and compared, a number counts by its value alone, whichever of the two it is;
a value here is a rational, or `⊤` for infinity. Negative infinity and NaN are numbers without one.
-/

namespace SkynetHotfix.Lua

/-- `math.maxinteger` -/
def maxInteger : Int := 9223372036854775807

/-- The integer of 64 bits that is `n` up to multiples of 2^64. -/
def wrap (n : Int) : Int := n.bmod 18446744073709551616

theorem wrap_of_le {n : Int} (h₁ : -maxInteger ≤ n) (h₂ : n ≤ maxInteger) : wrap n = n := by
  unfold maxInteger at h₁ h₂
  exact Int.bmod_eq_of_le (by omega) (by omega)

theorem le_wrap (n : Int) : -maxInteger - 1 ≤ wrap n := by
  have h := Int.le_bmod (x := n) (m := 18446744073709551616) (by omega)
  unfold maxInteger wrap
  omega

theorem wrap_le (n : Int) : wrap n ≤ maxInteger := by
  have h := Int.bmod_lt (x := n) (m := 18446744073709551616) (by omega)
  unfold maxInteger wrap
  omega

/-- A sum that is too large by less than 2^64 wraps to a negative number. -/
theorem wrap_neg {n : Int} (h₁ : maxInteger < n) (h₂ : n ≤ 2 * maxInteger) : wrap n < 0 := by
  unfold maxInteger at h₁ h₂
  have e : wrap n = n - 18446744073709551616 := by
    have h := Int.bmod_eq_of_le (n := n - 18446744073709551616) (m := 18446744073709551616)
      (by omega) (by omega)
    rw [← h, Int.sub_eq_add_neg]
    exact (Int.add_neg_mul_bmod_self_right n 1 18446744073709551616).symm
  omega

/-- The nearest whole number, of two the even one. -/
def nearest (q : ℚ) : ℤ :=
  if q - ⌊q⌋ < 1 / 2 then ⌊q⌋
  else if 1 / 2 < q - ⌊q⌋ then ⌊q⌋ + 1
  else if ⌊q⌋ % 2 = 0 then ⌊q⌋ else ⌊q⌋ + 1

/-- The last digit of the floats about `q`, a power of 2. -/
def ulp (q : ℚ) : ℚ := 2 ^ max (Int.log 2 |q| - 52) (-1074)

/-- The float nearest to `q`; `none` where that is an infinity. -/
def round (q : ℚ) : Option ℚ :=
  let r := nearest (q / ulp q) * ulp q
  if |r| < 2 ^ 1024 then some r else none

/-- A number; `lost` is negative infinity or NaN. -/
inductive Number
  | int (n : Int64)
  | float (q : ℚ)
  | inf
  | lost
deriving DecidableEq

/-- What a number is as a key. -/
abbrev NumKey := WithTop ℚ

/-- The key of an integer. -/
abbrev intKey (n : Int64) : NumKey := ((n.toInt : ℚ) : NumKey)

/-- The key that a number is; no field is ever written under a `lost` one here. -/
def Number.key : Number → NumKey
  | int n => intKey n
  | float q => (q : NumKey)
  | inf => ⊤
  | lost => ⊤

/-- `0 < n` -/
def Number.Pos : Number → Prop
  | int n => 0 < n
  | float q => 0 < q
  | inf => True
  | lost => False

instance : DecidablePred Number.Pos
  | .int _ => inferInstanceAs (Decidable (_ < _))
  | .float _ => inferInstanceAs (Decidable (_ < _))
  | .inf => .isTrue trivial
  | .lost => .isFalse id

/-- `i + n`, for an integer and a number. -/
def Number.add (i : Int64) : Number → Number
  | int n => int (i + n)
  | float q =>
    match (round i.toInt).bind fun p => round (p + q) with
    | some r => float r
    | none => if 0 < q then inf else lost
  | inf => inf
  | lost => lost

theorem intKey_inj {m n : Int64} : intKey m = intKey n ↔ m = n := by
  rw [intKey, intKey, WithTop.coe_inj, Int.cast_inj, Int64.toInt_inj]

theorem intKey_le {m n : Int64} : intKey m ≤ intKey n ↔ m ≤ n := by
  rw [intKey, intKey, WithTop.coe_le_coe, Int.cast_le, Int64.le_iff_toInt_le]

theorem intKey_lt {m n : Int64} : intKey m < intKey n ↔ m < n := by
  rw [intKey, intKey, WithTop.coe_lt_coe, Int.cast_lt, Int64.lt_iff_toInt_lt]

/-- A half is added without rounding, and lost in 2^53. -/
example : (Number.add 0 (.float (1 / 2))).key = ((1 / 2 : ℚ) : NumKey) := by decide +kernel

example : (Number.add 9007199254740992 (.float (1 / 2))).key = intKey 9007199254740992 := by
  decide +kernel

/-- The largest integer and one more is the smallest. -/
example : (Number.add 1 (.int 9223372036854775807)).key = intKey (-9223372036854775808) := by
  decide +kernel

end SkynetHotfix.Lua
