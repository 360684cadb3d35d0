import SkynetHotfix.Lua.Seq

/-!
# Cutting an array in two

`table.sub` and `table.subRest` of `common/base/luaext.lua`. For `table.sub` the
number `n` is the last position that it takes; `table.subRest` leaves out `n`
positions from `star` on. So the two divide an array just when it is cut off at
one of its ends (`sub_subRest_iff`).
-/

namespace SkynetHotfix.Luaext

open Lua

variable {α : Type} {arr xs ys : List α} {star n : Nat}

/-- `for i = first, last do table.insert(tb, arr[i]) end`, what it adds to `tb`. Where `arr[i]` is
`nil` nothing is added. -/
def taken (arr : List α) (first last : Int) : List α :=
  (Seq.steps first last).filterMap fun i => Seq.get arr i.toNat

/-- `table.sub(arr, star, n)` -/
def sub (arr : List α) (star : Int) (n : Option Int) : List α :=
  let len : Int := arr.length
  let n := n.getD len
  if len < n ∨ len < star then [] else taken arr star n

/-- `table.subRest(arr, star, n)` -/
def subRest (arr : List α) (star : Int) (n : Option Int) : List α :=
  let len : Int := arr.length
  let n := n.getD len
  taken arr 1 (star - 1) ++ taken arr (star + n) len

/-- Two arrays with the items of `arr`, in their order: each position is in one of the two. -/
def Divides (arr xs ys : List α) : Prop :=
  ∃ is js : List Nat, is.Pairwise (· < ·) ∧ js.Pairwise (· < ·) ∧ is.Disjoint js ∧
    (∀ i, i ∈ is ∨ i ∈ js ↔ 1 ≤ i ∧ i ≤ arr.length) ∧
    xs = is.filterMap (Seq.get arr) ∧ ys = js.filterMap (Seq.get arr)

theorem taken_eq (arr : List α) (first last : Nat) :
    taken arr first last =
      (List.range' first (last + 1 - first)).filterMap (Seq.get arr) := by
  rw [← Seq.toNat_steps, List.filterMap_map]
  rfl

theorem sub_eq (hstar : star ≤ n) (hn : n ≤ arr.length) :
    sub arr star (some n) = (List.range' star (n + 1 - star)).filterMap (Seq.get arr) := by
  rw [← taken_eq]
  refine if_neg ?_
  dsimp only [Option.getD_some]
  omega

theorem subRest_eq (arr : List α) (hstar : 1 ≤ star) :
    subRest arr star (some n) =
      (List.range' 1 (star - 1) ++ List.range' (star + n) (arr.length + 1 - (star + n))).filterMap
        (Seq.get arr) := by
  have hfirst : taken arr 1 ((star : Int) - 1) =
      (List.range' 1 (star - 1)).filterMap (Seq.get arr) := by
    have h := taken_eq arr 1 (star - 1)
    rw [Nat.sub_add_cancel hstar] at h
    rw [← h]
    congr 1
    omega
  rw [List.filterMap_append, ← taken_eq, ← hfirst]
  rfl

/-- The two have all items between them. -/
theorem Divides.length (h : Divides arr xs ys) : xs.length + ys.length = arr.length := by
  obtain ⟨is, js, his, hjs, hd, hmem, rfl, rfl⟩ := h
  have hp : (is ++ js).Perm (List.range' 1 arr.length) := by
    refine (List.perm_ext_iff_of_nodup ?_ List.nodup_range').mpr fun i => ?_
    · exact List.Nodup.append (his.imp Nat.ne_of_lt) (hjs.imp Nat.ne_of_lt) hd
    · rw [List.mem_append, hmem, List.mem_range'_1]
      omega
  rw [Seq.length_filterMap_get fun i hi => (hmem i).mp (.inl hi),
    Seq.length_filterMap_get fun j hj => (hmem j).mp (.inr hj), ← List.length_append,
    hp.length_eq, List.length_range']

/-- `table.sub` and `table.subRest` divide an array just when it is cut off at one of its ends. -/
theorem sub_subRest_iff (arr : List α) (star n : Int) (hstar : 1 ≤ star) (hle : star ≤ n)
    (hn : n ≤ arr.length) :
    Divides arr (sub arr star (some n)) (subRest arr star (some n)) ↔
      star = 1 ∨ n = arr.length := by
  obtain ⟨star, rfl⟩ := Int.eq_ofNat_of_zero_le (a := star) (by omega)
  obtain ⟨n, rfl⟩ := Int.eq_ofNat_of_zero_le (a := n) (by omega)
  have hstar : 1 ≤ star := by omega
  have hle : star ≤ n := by omega
  have hn : n ≤ arr.length := by omega
  rw [sub_eq hle hn, subRest_eq arr hstar]
  constructor
  · intro h
    have hlen := h.length
    rw [Seq.length_filterMap_get, Seq.length_filterMap_get] at hlen
    · simp only [List.length_append, List.length_range'] at hlen
      omega
    · intro i hi
      rw [List.mem_append, List.mem_range'_1, List.mem_range'_1] at hi
      omega
    · intro i hi
      rw [List.mem_range'_1] at hi
      omega
  · intro h
    refine ⟨_, _, List.pairwise_lt_range', ?_, ?_, fun i => ?_, rfl, rfl⟩
    · refine List.pairwise_append.mpr
        ⟨List.pairwise_lt_range', List.pairwise_lt_range', fun i hi j hj => ?_⟩
      rw [List.mem_range'_1] at hi hj
      omega
    · intro i hi hj
      rw [List.mem_append, List.mem_range'_1, List.mem_range'_1] at hj
      rw [List.mem_range'_1] at hi
      omega
    · rw [List.mem_append, List.mem_range'_1, List.mem_range'_1, List.mem_range'_1]
      omega

theorem sub_subRest_iff_front :
    Divides [5, 6, 7] (sub [5, 6, 7] 1 (some 2)) (subRest [5, 6, 7] 1 (some 2)) ↔
      (1 : Int) = 1 ∨ (2 : Int) = [5, 6, 7].length :=
  sub_subRest_iff [5, 6, 7] 1 2 (by decide) (by decide) (by decide)

/-- The item behind the one that is taken is in neither. -/
theorem sub_subRest_loses :
    ¬ Divides [1, 2, 3] (sub [1, 2, 3] 2 (some 2)) (subRest [1, 2, 3] 2 (some 2)) := by
  intro h
  have hlen := h.length
  revert hlen
  decide

end SkynetHotfix.Luaext
