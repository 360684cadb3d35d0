import Mathlib.Logic.Function.Basic
import Mathlib.Data.List.Basic

/-!
# Lists that are dealt into buckets

Elements that are dealt into buckets by a key keep their order in each bucket (`Dealt`). One more
element goes to the end of its own bucket (`Dealt.append`). When the key changes with time, a bucket
whose elements have other keys now is emptied and dealt again (`Dealt.redeal`), which keeps all in
order as long as these go to buckets that have been empty.
-/

namespace Buckets

open Function (update)

variable {α ι : Type*} [DecidableEq ι] {key key' : α → ι} {buckets buckets' : ι → List α}
  {l l' : List α} {i : ι} {a : α}

/-- Each bucket holds the elements with its key, in their order. -/
def Dealt (key : α → ι) (l : List α) (buckets : ι → List α) : Prop :=
  ∀ i, buckets i = l.filter (key · = i)

/-- An element goes to the end of its bucket. -/
def put (key : α → ι) (buckets : ι → List α) (a : α) : ι → List α :=
  update buckets (key a) (buckets (key a) ++ [a])

theorem put_apply (key : α → ι) (buckets : ι → List α) (a : α) (i : ι) :
    put key buckets a i = buckets i ++ [a].filter (key · = i) := by
  by_cases h : key a = i
  · subst h
    simp [put]
  · rw [put, Function.update_of_ne (Ne.symm h)]
    simp [h]

theorem foldl_put (key : α → ι) (l : List α) (buckets : ι → List α) (i : ι) :
    l.foldl (put key) buckets i = buckets i ++ l.filter (key · = i) := by
  induction l generalizing buckets with
  | nil => simp
  | cons a l ih =>
    rw [List.foldl_cons, ih, put_apply, List.append_assoc, ← List.filter_append]
    rfl

theorem Dealt.append (h : Dealt key l buckets) (a : α) :
    Dealt key (l ++ [a]) (put key buckets a) := by
  intro i
  rw [put_apply, h i, List.filter_append]

/-- What a bucket holds is taken out. -/
theorem Dealt.take (h : Dealt key l buckets) (i : ι) :
    Dealt key (l.filter (key · ≠ i)) (update buckets i []) := by
  intro j
  rw [List.filter_filter]
  by_cases hj : j = i
  · subst hj
    simp
  · rw [Function.update_of_ne hj, h j]
    refine List.filter_congr fun a _ => ?_
    by_cases ha : key a = j
    · simp [ha, hj]
    · simp [ha]

/-- A bucket is dealt again, by keys that only its own elements have changed: they go to buckets
that have been empty. -/
theorem Dealt.redeal (h : Dealt key l buckets) (hkeep : ∀ a ∈ l, key a ≠ i → key' a = key a)
    (hempty : ∀ a ∈ l, key a = i → ∀ b ∈ l, key b ≠ key' a) :
    Dealt key' l ((buckets i).foldl (put key') (update buckets i [])) := by
  intro j
  rw [foldl_put, h i, List.filter_filter]
  by_cases hmove : ∃ a ∈ l, key a = i ∧ key' a = j
  · obtain ⟨a, ha, hai, haj⟩ := hmove
    -- only what is dealt again goes to this bucket
    have hnone : ∀ b ∈ l, key b ≠ j := fun b hb => haj ▸ hempty a ha hai b hb
    have hold : update buckets i [] j = [] := by
      by_cases hj : j = i
      · rw [hj, Function.update_self]
      · rw [Function.update_of_ne hj, h j, List.filter_eq_nil_iff]
        exact fun b hb => by simp [hnone b hb]
    rw [hold, List.nil_append]
    refine List.filter_congr fun b hb => ?_
    by_cases hbi : key b = i
    · simp [hbi]
    · simp [hkeep b hb hbi, hnone b hb]
  · have hmoved : l.filter (fun a => (decide (key' a = j)) && decide (key a = i)) = [] := by
      rw [List.filter_eq_nil_iff]
      intro a ha hboth
      simp only [Bool.and_eq_true, decide_eq_true_eq] at hboth
      exact hmove ⟨a, ha, hboth.2, hboth.1⟩
    rw [hmoved, List.append_nil]
    by_cases hj : j = i
    · subst hj
      rw [Function.update_self, eq_comm, List.filter_eq_nil_iff]
      intro a ha hnew
      rw [decide_eq_true_eq] at hnew
      by_cases hai : key a = j
      · exact hmove ⟨a, ha, hai, hnew⟩
      · exact hai (hkeep a ha hai ▸ hnew)
    · rw [Function.update_of_ne hj, h j]
      refine List.filter_congr fun a ha => ?_
      by_cases hai : key a = i
      · have hold : key a ≠ j := fun e => hj (e.symm.trans hai)
        have hnew : key' a ≠ j := fun e => hmove ⟨a, ha, hai, e⟩
        simp [hold, hnew]
      · rw [hkeep a ha hai]

end Buckets
