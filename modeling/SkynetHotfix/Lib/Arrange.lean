import Mathlib.Data.List.Perm.Basic
import Mathlib.Data.List.Nodup
import Mathlib.Data.List.FinRange
import Mathlib.Algebra.BigOperators.Group.List.Basic
import Mathlib.Data.Nat.Factorial.Basic

/-!
# Arrangements by swaps

The arrangements of a list in the order in which they are met when each item in
turn is swapped to the front (`pick`) and the rest is arranged. Each occurs
once (`mem_arrangements`, `nodup_arrangements`, `length_arrangements`).
-/

namespace Arrange

variable {α β : Type*} {x y : α} {t s p : List α} {n i j : Nat}

/-- The head and the tail of `x :: t` after its items `0` and `i` are swapped. -/
def pick (x : α) (t : List α) : Nat → α × List α
  | 0 => (x, t)
  | i + 1 => (t.getD i x, t.set i x)

/-- The arrangements of a list of `n` items. -/
def arrangements : Nat → List α → List (List α)
  | 0, _ => [[]]
  | _ + 1, [] => []
  | n + 1, x :: t => (List.range (n + 1)).flatMap fun i =>
      (arrangements n (pick x t i).2).map ((pick x t i).1 :: ·)

theorem length_pick (x : α) (t : List α) (i : Nat) : (pick x t i).2.length = t.length := by
  cases i with
  | zero => rfl
  | succ i => exact List.length_set

theorem pick_perm (h : i ≤ t.length) : ((pick x t i).1 :: (pick x t i).2).Perm (x :: t) := by
  cases i with
  | zero => exact .refl _
  | succ i =>
    have hi : i + 1 < (x :: t).length := Nat.succ_lt_succ h
    have hp := List.set_set_perm (i := 0) (j := i + 1) (show 0 < (x :: t).length by simp) hi
    simpa [pick, List.getD_eq_getElem?_getD, List.getElem?_eq_getElem (show i < t.length from h)]
      using hp

theorem exists_pick (h : y ∈ x :: t) : ∃ i ≤ t.length, (pick x t i).1 = y := by
  rcases List.mem_cons.mp h with rfl | h
  · exact ⟨0, Nat.zero_le _, rfl⟩
  · obtain ⟨i, hi, rfl⟩ := List.getElem_of_mem h
    exact ⟨i + 1, hi, by simp [pick, List.getD_eq_getElem?_getD, hi]⟩

/-- The items of a list without repetitions are picked once. -/
theorem eq_of_pick (hn : (x :: t).Nodup) (hi : i ≤ t.length) (hj : j ≤ t.length)
    (h : (pick x t i).1 = (pick x t j).1) : i = j := by
  obtain ⟨hx, ht⟩ := List.nodup_cons.mp hn
  have hget : ∀ i, i < t.length → (pick x t (i + 1)).1 ∈ t := by
    intro i hi
    simp [pick, List.getD_eq_getElem?_getD, hi]
  cases i with
  | zero =>
    cases j with
    | zero => rfl
    | succ j =>
      have hm := hget j hj
      rw [← h] at hm
      exact absurd hm hx
  | succ i =>
    cases j with
    | zero =>
      have hm := hget i hi
      rw [h] at hm
      exact absurd hm hx
    | succ j =>
      have hi' : i < t.length := hi
      have hj' : j < t.length := hj
      simp only [pick, List.getD_eq_getElem?_getD, List.getElem?_eq_getElem hi',
        List.getElem?_eq_getElem hj', Option.getD_some] at h
      rw [(ht.getElem_inj_iff).mp h]

theorem mem_arrangements (hs : s.length = n) : p ∈ arrangements n s ↔ p.Perm s := by
  induction n generalizing s p with
  | zero =>
    rw [List.length_eq_zero_iff.mp hs]
    simp [arrangements]
  | succ n ih =>
    cases s with
    | nil => cases hs
    | cons x t =>
      have ht : t.length = n := by simpa using hs
      simp only [arrangements, List.mem_flatMap, List.mem_range, List.mem_map]
      constructor
      · rintro ⟨i, hi, q, hq, rfl⟩
        have hq := (ih (by rw [length_pick, ht])).mp hq
        exact (hq.cons _).trans (pick_perm (by omega))
      · intro hp
        cases p with
        | nil => exact absurd hp.length_eq (by simp)
        | cons y q =>
          obtain ⟨i, hi, rfl⟩ := exists_pick (hp.mem_iff.mp List.mem_cons_self)
          refine ⟨i, by omega, q, (ih (by rw [length_pick, ht])).mpr ?_, rfl⟩
          exact (hp.trans (pick_perm hi).symm).cons_inv

theorem nodup_arrangements (hs : s.length = n) (hn : s.Nodup) : (arrangements n s).Nodup := by
  induction n generalizing s with
  | zero => simp [arrangements]
  | succ n ih =>
    cases s with
    | nil => cases hs
    | cons x t =>
      have ht : t.length = n := by simpa using hs
      refine List.nodup_flatMap.mpr ⟨fun i hi => ?_, ?_⟩
      · have hi := List.mem_range.mp hi
        have hpick := (pick_perm (x := x) (t := t) (i := i) (by omega)).nodup_iff.mpr hn
        exact (ih (by rw [length_pick, ht]) (List.nodup_cons.mp hpick).2).map
          (List.cons_injective)
      · refine (List.nodup_range (n := n + 1)).pairwise_of_forall_ne fun i hi j hj hij => ?_
        have hi := List.mem_range.mp hi
        have hj := List.mem_range.mp hj
        intro p hp hp'
        obtain ⟨q, -, rfl⟩ := List.mem_map.mp hp
        obtain ⟨q', -, e⟩ := List.mem_map.mp hp'
        exact hij (eq_of_pick hn (by omega) (by omega) (List.cons.inj e).1.symm)

theorem length_arrangements (hs : s.length = n) :
    (arrangements n s).length = n.factorial := by
  induction n generalizing s with
  | zero => rfl
  | succ n ih =>
    cases s with
    | nil => cases hs
    | cons x t =>
      have ht : t.length = n := by simpa using hs
      simp only [arrangements, List.length_flatMap, List.length_map]
      rw [List.map_congr_left (g := fun _ => n.factorial) fun i _ =>
        ih (by rw [length_pick, ht])]
      simp [Nat.factorial_succ]

/-- Arranging does not look at the items. -/
theorem arrangements_map (f : α → β) (n : Nat) (s : List α) :
    arrangements n (s.map f) = (arrangements n s).map (List.map f) := by
  induction n generalizing s with
  | zero => rfl
  | succ n ih =>
    cases s with
    | nil => rfl
    | cons x t =>
      have hpick : ∀ i, pick (f x) (t.map f) i =
          (f (pick x t i).1, (pick x t i).2.map f) := by
        intro i
        cases i with
        | zero => rfl
        | succ i => simp [pick, List.getD_eq_getElem?_getD, Option.getD_map]
      simp only [List.map_cons, arrangements, List.map_flatMap, List.map_map, hpick, ih]
      rfl

end Arrange
