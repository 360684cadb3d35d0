import Mathlib.Data.Nat.ModEq
import Mathlib.Logic.Function.Basic

/-!
# Circular buffers

The cells of a buffer that is used round and round. A `window` is what lies from one cell on, in
order; it loses its first cell where its start moves on (`window_succ`), and gets one more where
the cell behind it is written (`window_put`). A window moved to another buffer is the same
(`window_copy`).
-/

namespace Circular

open Function (update)

variable {α : Type*} {cell cell' : Nat → α} {cap cap' head head' n : Nat}

/-- The `n` cells from `head` on, in a buffer of `cap` cells. -/
def window (cell : Nat → α) (cap head n : Nat) : List α :=
  (List.range n).map fun i => cell ((head + i) % cap)

@[simp] theorem length_window : (window cell cap head n).length = n := by
  simp [window]

@[simp] theorem window_zero : window cell cap head 0 = [] := rfl

theorem window_succ (cell : Nat → α) (cap head n : Nat) :
    window cell cap head (n + 1) = cell (head % cap) :: window cell cap (head + 1) n := by
  rw [window, List.range_succ_eq_map, List.map_cons, List.map_map]
  refine congrArg _ (List.map_congr_left fun i _ => ?_)
  show cell ((head + (i + 1)) % cap) = cell ((head + 1 + i) % cap)
  rw [show head + (i + 1) = head + 1 + i by omega]

/-- A window starts anew at the end of the buffer. -/
theorem window_mod (cell : Nat → α) (cap head n : Nat) :
    window cell cap (head % cap) n = window cell cap head n := by
  refine List.map_congr_left fun i _ => ?_
  rw [Nat.mod_add_mod]

/-- The cell behind a window is none of its own, as long as the buffer is not full. -/
theorem window_put (cell : Nat → α) (head : Nat) (a : α) (hn : n < cap) :
    window (update cell ((head + n) % cap) a) cap head (n + 1) =
      window cell cap head n ++ [a] := by
  rw [window, List.range_succ, List.map_append, List.map_singleton, Function.update_self]
  refine congrArg (· ++ [a]) (List.map_congr_left fun i hi => ?_)
  have hin := List.mem_range.mp hi
  refine Function.update_of_ne (fun h => ?_) _ _
  have hmod : i ≡ n [MOD cap] := Nat.ModEq.add_left_cancel' head h
  have := hmod.eq_of_lt_of_lt (hin.trans hn) hn
  omega

theorem window_copy (h : ∀ i < n, cell' ((head' + i) % cap') = cell ((head + i) % cap)) :
    window cell' cap' head' n = window cell cap head n :=
  List.map_congr_left fun i hi => h i (List.mem_range.mp hi)

end Circular
