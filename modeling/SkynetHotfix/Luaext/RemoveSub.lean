import Mathlib.Data.List.Sort
import SkynetHotfix.Lua.Seq

/-!
# Removing items

`table.removeSub` of `common/base/luaext.lua`, on arrays of values that are compared by `==`. It
lists the position of an item once for each item of `tbSub` that it is equal to
and removes the positions listed from the last to the first; a position that is
listed more than once takes items behind it along (`removeListed_eq`). So what
is returned is right just when there is nothing to keep behind such an
item (`removeSub_iff`).
-/

namespace SkynetHotfix.Luaext

open Function (update)
open Lua

variable {α : Type} [BEq α] {tbSub pre suf : List α} {x : α}

/-- The arrays, by identity, of which there are `size`. -/
structure Arrays (α : Type) where
  array : Nat → List α
  size : Nat

/-- `table.copy(t)`, of an array without tables: a fresh one with the same items. -/
def copyArray (t : Nat) (s : Arrays α) : Nat × Arrays α :=
  (s.size, ⟨update s.array s.size (s.array t), s.size + 1⟩)

/-- The two loops that fill `tbRemove`. -/
def listed (tb2 tbSub : List α) : List Nat :=
  (Seq.ipairs tb2).foldl (fun tbRemove e =>
    tbSub.foldl (fun tbRemove card => if e.2 == card then tbRemove ++ [e.1] else tbRemove)
      tbRemove) []

/-- `table.sort(tbRemove, sort)` and the loop of `table.remove`. -/
def removeListed (tbRemove : List Nat) (tb2 : List α) : Option (List α) :=
  (tbRemove.insertionSort (· ≥ ·)).foldlM Seq.remove tb2

/-- `table.removeSub(tb, tbSub)`: what it returns, `nil` included; `none` if it raises. -/
def removeSub (tb : Nat) (tbSub : Option Nat) (s : Arrays α) : Option (Option Nat × Arrays α) :=
  match tbSub with
  | none => some (none, s)
  | some tbSub =>
    if s.array tbSub = [] then some (none, s)
    else do
      let (tb2, s) := copyArray tb s
      let items ← removeListed (listed (s.array tb2) (s.array tbSub)) (s.array tb2)
      some (some tb2, { s with array := update s.array tb2 items })

/-! ## What is removed -/

/-- How many items of `tbSub` an item is equal to. -/
def times (tbSub : List α) (x : α) : Nat := tbSub.countP (x == ·)

/-- What is left of an array, from an item on. -/
def left (tbSub : List α) (tb : List α) : List α :=
  tb.foldr (fun x rest => (x :: rest).drop (times tbSub x)) []

/-- The elements that do not occur in `tbSub`. -/
def kept (tbSub tb : List α) : List α := tb.filter fun x => !tbSub.any (x == ·)

/-- The positions from `k` on that are listed, the last first. -/
def positions (tbSub : List α) : Nat → List α → List Nat
  | _, [] => []
  | k, x :: tb => positions tbSub (k + 1) tb ++ List.replicate (times tbSub x) k

theorem foldl_listed (k : Nat) (x : α) (tbRemove : List Nat) :
    tbSub.foldl (fun tbRemove card => if x == card then tbRemove ++ [k] else tbRemove) tbRemove =
      tbRemove ++ List.replicate (times tbSub x) k := by
  induction tbSub generalizing tbRemove with
  | nil => simp [times]
  | cons card tbSub ih =>
    rw [List.foldl_cons, ih]
    by_cases h : x == card
    · have ht : times (card :: tbSub) x = times tbSub x + 1 := List.countP_cons_of_pos h
      rw [if_pos h, ht, List.replicate_succ, List.append_assoc]
      rfl
    · have ht : times (card :: tbSub) x = times tbSub x := List.countP_cons_of_neg h
      rw [if_neg h, ht]

/-- The positions listed are those, in another order. -/
theorem listed_perm (tb : List α) : (listed tb tbSub).Perm (positions tbSub 1 tb) := by
  have key : ∀ (tb : List α) (k : Nat) (tbRemove : List Nat),
      (((List.range' k tb.length).zip tb).foldl (fun tbRemove e =>
        tbSub.foldl (fun tbRemove card => if e.2 == card then tbRemove ++ [e.1] else tbRemove)
          tbRemove) tbRemove).Perm (tbRemove ++ positions tbSub k tb) := by
    intro tb
    induction tb with
    | nil => intro k tbRemove; simp [positions]
    | cons x tb ih =>
      intro k tbRemove
      rw [List.length_cons, List.range'_succ, List.zip_cons_cons, List.foldl_cons, foldl_listed]
      refine (ih (k + 1) _).trans ?_
      rw [List.append_assoc, positions]
      exact (List.perm_append_comm).append_left _
  exact key tb 1 []

theorem le_of_mem_positions {tb : List α} {k p : Nat} (h : p ∈ positions tbSub k tb) : k ≤ p := by
  induction tb generalizing k with
  | nil => cases h
  | cons x tb ih =>
    rcases List.mem_append.mp h with h | h
    · exact Nat.le_of_succ_le (ih h)
    · rw [List.eq_of_mem_replicate h]

theorem positions_sorted (k : Nat) (tb : List α) :
    (positions tbSub k tb).Pairwise (· ≥ ·) := by
  induction tb generalizing k with
  | nil => exact .nil
  | cons x tb ih =>
    refine List.pairwise_append.mpr ⟨ih (k + 1), ?_, fun p hp q hq => ?_⟩
    · exact List.pairwise_replicate.mpr (Or.inr (Nat.le_refl k))
    · rw [List.eq_of_mem_replicate hq]
      exact Nat.le_of_succ_le (le_of_mem_positions hp)

theorem sort_listed (tb : List α) :
    (listed tb tbSub).insertionSort (· ≥ ·) = positions tbSub 1 tb :=
  ((List.perm_insertionSort _ _).trans (listed_perm tb)).eq_of_pairwise'
    (List.pairwise_insertionSort _ _) (positions_sorted 1 tb)

omit [BEq α] in
/-- A position that is removed again takes what has come to it. -/
theorem foldlM_remove_replicate {k : Nat} (hk : k = pre.length + 1) (n : Nat) (a : List α) :
    (List.replicate n k).foldlM Seq.remove (pre ++ a) = some (pre ++ a.drop n) := by
  induction n generalizing a with
  | zero => rfl
  | succ n ih =>
    rw [List.replicate_succ, List.foldlM_cons, Seq.remove_append hk, Nat.add_comm n 1,
      ← List.drop_drop]
    exact ih _

/-- The removals behind `pre` leave what is `left` there. -/
theorem foldlM_remove_positions (pre suf : List α) {k : Nat} (hk : k = pre.length + 1) :
    (positions tbSub k suf).foldlM Seq.remove (pre ++ suf) = some (pre ++ left tbSub suf) := by
  induction suf generalizing k pre with
  | nil => rfl
  | cons x suf ih =>
    have h := ih (k := k + 1) (pre ++ [x]) (by simp [hk])
    rw [List.append_assoc] at h
    rw [positions, List.foldlM_append]
    show (positions tbSub (k + 1) suf).foldlM Seq.remove (pre ++ ([x] ++ suf)) >>= _ = _
    rw [h, List.append_assoc]
    exact foldlM_remove_replicate hk _ (x :: left tbSub suf)

/-- All removals together; none of them is out of bounds. -/
theorem removeListed_eq (tbSub tb : List α) :
    removeListed (listed tb tbSub) tb = some (left tbSub tb) := by
  rw [removeListed, sort_listed]
  exact foldlM_remove_positions [] tb rfl

/-! ## What is kept -/

theorem kept_cons_of_times_eq_zero {tb : List α} (h : times tbSub x = 0) :
    kept tbSub (x :: tb) = x :: kept tbSub tb := by
  have h := List.countP_eq_zero.mp h
  refine List.filter_cons_of_pos ?_
  simpa using h

theorem kept_cons_of_pos {tb : List α} (h : 0 < times tbSub x) :
    kept tbSub (x :: tb) = kept tbSub tb := by
  obtain ⟨y, hy, hxy⟩ := List.countP_pos_iff.mp h
  refine List.filter_cons_of_neg ?_
  simpa using ⟨y, hy, hxy⟩

theorem length_left_le (tbSub tb : List α) : (left tbSub tb).length ≤ (kept tbSub tb).length := by
  induction tb with
  | nil => exact Nat.le_refl 0
  | cons x tb ih =>
    show ((x :: left tbSub tb).drop (times tbSub x)).length ≤ _
    rw [List.length_drop, List.length_cons]
    rcases Nat.eq_zero_or_pos (times tbSub x) with h | h
    · rw [kept_cons_of_times_eq_zero h, List.length_cons]
      omega
    · rw [kept_cons_of_pos h]
      omega

/-- Behind an element that is equal to two items of `tbSub` all occur in it. -/
def NoneBehind (tbSub tb : List α) : Prop :=
  ∀ pre x suf, tb = pre ++ x :: suf → 2 ≤ times tbSub x → ∀ y ∈ suf, tbSub.any (y == ·)

theorem kept_eq_nil_iff (tb : List α) :
    kept tbSub tb = [] ↔ ∀ y ∈ tb, tbSub.any (y == ·) := by
  simp [kept, List.filter_eq_nil_iff]

theorem noneBehind_cons {tb : List α} : NoneBehind tbSub (x :: tb) ↔
    (2 ≤ times tbSub x → kept tbSub tb = []) ∧ NoneBehind tbSub tb := by
  constructor
  · intro h
    refine ⟨fun hx => (kept_eq_nil_iff tb).mpr (h [] x tb rfl hx), fun pre y suf htb => ?_⟩
    exact h (x :: pre) y suf (by rw [htb]; rfl)
  · rintro ⟨hx, h⟩ pre y suf htb hy
    cases pre with
    | nil =>
      obtain ⟨rfl, rfl⟩ := List.cons.inj htb
      exact (kept_eq_nil_iff tb).mp (hx hy)
    | cons _ pre => exact h pre y suf (List.cons.inj htb).2 hy

/-- What is left is what was to be kept, just when nothing is to be kept behind an item that is
listed twice. -/
theorem left_eq_kept_iff (tb : List α) :
    left tbSub tb = kept tbSub tb ↔ NoneBehind tbSub tb := by
  induction tb with
  | nil =>
    refine iff_of_true rfl fun pre x suf h => ?_
    cases pre <;> cases h
  | cons x tb ih =>
    have hcons : left tbSub (x :: tb) = (x :: left tbSub tb).drop (times tbSub x) := rfl
    rw [noneBehind_cons, ← ih, hcons]
    have hle := length_left_le tbSub tb
    rcases hm : times tbSub x with _ | _ | m
    · rw [kept_cons_of_times_eq_zero hm, List.drop_zero, List.cons_inj_right]
      simp
    · rw [kept_cons_of_pos (by omega), List.drop_one, List.tail_cons]
      simp
    · rw [kept_cons_of_pos (by omega), List.drop_succ_cons]
      constructor
      · intro h
        have hlen := congrArg List.length h
        rw [List.length_drop] at hlen
        -- nothing can be left if something is dropped and as much is to be kept
        have hnil : kept tbSub tb = [] := List.length_eq_zero_iff.mp (by omega)
        refine ⟨fun _ => hnil, ?_⟩
        rw [hnil] at hle ⊢
        exact List.length_eq_zero_iff.mp (Nat.le_zero.mp hle)
      · rintro ⟨hnil, h⟩
        rw [h, hnil (by omega), List.drop_nil]

/-- What is returned is a fresh array of the elements that do not occur in `tbSub`, and the others
are as they were, just when `tbSub` has an item and nothing is to be kept behind an element that
is equal to two of its items. -/
theorem removeSub_iff (tb tbSub : Nat) (s : Arrays α) (htbSub : tbSub < s.size) :
    (∃ r s', removeSub tb (some tbSub) s = some (some r, s') ∧
      s'.array r = kept (s.array tbSub) (s.array tb) ∧ s.size ≤ r ∧
      ∀ a < s.size, s'.array a = s.array a) ↔
      s.array tbSub ≠ [] ∧ NoneBehind (s.array tbSub) (s.array tb) := by
  by_cases hnil : s.array tbSub = []
  · simp [removeSub, hnil]
  · have hold : ∀ a < s.size, (copyArray tb s).2.array a = s.array a := fun a ha =>
      Function.update_of_ne (by omega) ..
    have hnew : (copyArray tb s).2.array s.size = s.array tb := Function.update_self ..
    have hrun : removeSub tb (some tbSub) s = some (some s.size, { (copyArray tb s).2 with
        array := update (copyArray tb s).2.array s.size
          (left (s.array tbSub) (s.array tb)) }) := by
      have hitems := removeListed_eq (s.array tbSub) (s.array tb)
      simp only [removeSub, if_neg hnil]
      show (removeListed (listed ((copyArray tb s).2.array s.size)
        ((copyArray tb s).2.array tbSub)) ((copyArray tb s).2.array s.size)).bind _ = _
      rw [hold tbSub htbSub, hnew, hitems]
      rfl
    have hself : update (copyArray tb s).2.array s.size (left (s.array tbSub) (s.array tb)) s.size =
        left (s.array tbSub) (s.array tb) := Function.update_self ..
    rw [hrun, ← left_eq_kept_iff]
    constructor
    · rintro ⟨r, s', h, hr, -⟩
      obtain ⟨hr', hs'⟩ := Prod.mk.inj (Option.some.inj h)
      rw [← hs', ← Option.some.inj hr'] at hr
      exact ⟨hnil, hself.symm.trans hr⟩
    · rintro ⟨-, h⟩
      refine ⟨_, _, rfl, ?_, Nat.le_refl _, fun a ha => ?_⟩
      · exact hself.trans h
      · exact (Function.update_of_ne (by omega) ..).trans (hold a ha)

/-- A value that is to be removed twice takes the next one along: `{1, 2, 3}` without `{1, 1}` is
`{3}`. -/
theorem removeSub_takes_next :
    ¬ ∃ r s', removeSub 0 (some 1) ⟨fun a => if a = 0 then [1, 2, 3] else [1, 1], 2⟩ =
      some (some r, s') ∧ s'.array r = kept [1, 1] [1, 2, 3] := by
  rintro ⟨r, s', h, hr⟩
  obtain ⟨hr', hs'⟩ := Prod.mk.inj (Option.some.inj h)
  rw [← hs', ← Option.some.inj hr'] at hr
  exact absurd hr (by decide)

/-- `{1, 2, 1, 3}` without `{1, 4}`. -/
theorem removeSub_iff_sample :
    ∃ r s', removeSub 0 (some 1) ⟨fun a => if a = 0 then [1, 2, 1, 3] else [1, 4], 2⟩ =
      some (some r, s') ∧ s'.array r = [2, 3] := by
  obtain ⟨r, s', h, hr, -⟩ := (removeSub_iff 0 1
    ⟨fun a => if a = 0 then [1, 2, 1, 3] else [1, 4], 2⟩ (by decide)).mpr
    ⟨by decide, (left_eq_kept_iff _).mp (by decide)⟩
  exact ⟨r, s', h, hr⟩

end SkynetHotfix.Luaext
