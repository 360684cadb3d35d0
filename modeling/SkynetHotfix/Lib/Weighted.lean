import Mathlib.Data.List.Nodup
import Mathlib.Data.List.Perm.Basic

/-!
# Choices by weight

The items of a list own intervals of numbers, one behind the other, each as
long as its weight; a number picks the item whose interval it is in. Each number
up to the total picks an item (`exists_pick`), and an item is picked by as
many as its weight (`countP_pick`), wherever it is in the list.
-/

namespace Weighted

variable {α : Type*} {w : α → Nat} {a : α} {l pre post : List α} {last r : Int}

/-- The length of all intervals. -/
def total (w : α → Nat) : List α → Nat
  | [] => 0
  | a :: l => w a + total w l

/-- The item of `r`, where the first interval is behind `last`. -/
def pick (w : α → Nat) (r : Int) : Int → List α → Option α
  | _, [] => none
  | last, a :: l => if last < r ∧ r ≤ last + w a then some a else pick w r (last + w a) l

@[simp] theorem total_nil : total w [] = 0 := rfl

@[simp] theorem total_cons : total w (a :: l) = w a + total w l := rfl

@[simp] theorem total_append : total w (pre ++ l) = total w pre + total w l := by
  induction pre with
  | nil => simp
  | cons b pre ih => rw [List.cons_append, total_cons, total_cons, ih, Nat.add_assoc]

theorem total_perm {l' : List α} (h : l.Perm l') : total w l = total w l' := by
  induction h with
  | nil => rfl
  | cons b _ ih => rw [total_cons, total_cons, ih]
  | swap b b' l =>
    simp only [total_cons]
    omega
  | trans _ _ ih ih' => rw [ih, ih']

/-- Each number of an interval picks. -/
theorem exists_pick (h : last < r) (h' : r ≤ last + total w l) :
    ∃ a, pick w r last l = some a := by
  induction l generalizing last with
  | nil =>
    rw [total_nil] at h'
    omega
  | cons b l ih =>
    rw [total_cons] at h'
    rw [pick]
    split
    · exact ⟨b, rfl⟩
    · exact ih (by omega) (by omega)

/-- What is picked is an item, of a weight. -/
theorem of_pick (h : pick w r last l = some a) : a ∈ l ∧ 0 < w a ∧ last < r := by
  induction l generalizing last with
  | nil => cases h
  | cons b l ih =>
    rw [pick] at h
    split at h
    · cases h
      exact ⟨List.mem_cons_self, by omega, by omega⟩
    · obtain ⟨hmem, hw, hlt⟩ := ih h
      exact ⟨List.mem_cons_of_mem _ hmem, hw, by omega⟩

/-- An item is picked by the numbers of its interval, which is behind those of the items before
it. -/
theorem pick_eq_some_iff (hpre : a ∉ pre) (hpost : a ∉ post) :
    pick w r last (pre ++ a :: post) = some a ↔
      last + total w pre < r ∧ r ≤ last + total w pre + w a := by
  induction pre generalizing last with
  | nil =>
    rw [List.nil_append, pick, total_nil, Int.natCast_zero, Int.add_zero]
    split
    · rename_i h
      simp [h]
    · rename_i h
      exact ⟨fun hp => absurd (of_pick hp).1 hpost, fun hp => absurd hp h⟩
  | cons b pre ih =>
    obtain ⟨hne, hpre⟩ := not_or.mp (mt List.mem_cons.mpr hpre)
    rw [List.cons_append, pick, total_cons, Int.natCast_add]
    split
    · exact ⟨fun h => absurd (Option.some.inj h).symm hne, fun _ => by omega⟩
    · rw [ih hpre, Int.add_assoc last]

/-- An item is picked by as many numbers as its weight. -/
theorem countP_pick [DecidableEq α] (hn : l.Nodup) (ha : a ∈ l) :
    (List.range' 1 (total w l)).countP (fun r : Nat => pick w r 0 l = some a) = w a := by
  obtain ⟨pre, post, rfl⟩ := List.append_of_mem ha
  obtain ⟨-, hn', hdisj⟩ := List.nodup_append.mp hn
  have hpre : a ∉ pre := fun h => hdisj a h a List.mem_cons_self rfl
  have hpost : a ∉ post := (List.nodup_cons.mp hn').1
  have htotal : total w (pre ++ a :: post) = total w pre + (w a + total w post) := by
    rw [total_append, total_cons]
  have hpick : ∀ r : Nat, pick w r 0 (pre ++ a :: post) = some a ↔
      total w pre < r ∧ r ≤ total w pre + w a := by
    intro r
    rw [pick_eq_some_iff hpre hpost]
    omega
  simp only [hpick]
  -- the numbers before the interval, those of it and those behind it
  rw [htotal, ← List.range'_append_1, ← List.range'_append_1, List.countP_append,
    List.countP_append]
  have hbefore : (List.range' 1 (total w pre)).countP
      (fun r => total w pre < r ∧ r ≤ total w pre + w a) = 0 := by
    refine List.countP_eq_zero.mpr fun r hr => ?_
    have hr := List.mem_range'_1.mp hr
    simp only [decide_eq_true_eq]
    omega
  have hin : (List.range' (1 + total w pre) (w a)).countP
      (fun r => total w pre < r ∧ r ≤ total w pre + w a) = w a := by
    refine (List.countP_eq_length.mpr fun r hr => ?_).trans List.length_range'
    have hr := List.mem_range'_1.mp hr
    simp only [decide_eq_true_eq]
    omega
  have hbehind : (List.range' (1 + total w pre + w a) (total w post)).countP
      (fun r => total w pre < r ∧ r ≤ total w pre + w a) = 0 := by
    refine List.countP_eq_zero.mpr fun r hr => ?_
    have hr := List.mem_range'_1.mp hr
    simp only [decide_eq_true_eq]
    omega
  rw [hbefore, hin, hbehind, Nat.zero_add, Nat.add_zero]

end Weighted
