import Mathlib.Data.List.Perm.Basic
import Mathlib.Data.List.Nodup

/-!
# Lua sequences

A table that is used as an array, a sequence, is a list with indices from 1 (`get`, `set`);
`swap` is the assignment `a[i], a[j] = a[j], a[i]`, `ipairs` lists the items with their indices,
`steps` are the values of a numeric `for` and `remove` is `table.remove`.
-/

namespace SkynetHotfix.Lua.Seq

variable {α : Type*} {a b : List α} {i j n : Nat} {x y : α}

/-- `a[i]` -/
def get (a : List α) : Nat → Option α
  | 0 => none
  | i + 1 => a[i]?

/-- `a[i] = x`, of an item that is there. -/
def set (a : List α) : Nat → α → List α
  | 0, _ => a
  | i + 1, x => List.set a i x

/-- `a[i], a[j] = a[j], a[i]`; `none` if one of the two is not there. -/
def swap (a : List α) (i j : Nat) : Option (List α) := do
  let x ← get a i
  let y ← get a j
  some (set (set a i y) j x)

@[simp] theorem length_set (a : List α) (i : Nat) (x : α) : (set a i x).length = a.length := by
  cases i with
  | zero => rfl
  | succ i => exact List.length_set

theorem get_isSome : (get a i).isSome ↔ 1 ≤ i ∧ i ≤ a.length := by
  cases i with
  | zero => simp [get]
  | succ i =>
    show a[i]?.isSome ↔ _
    rw [isSome_getElem?]
    omega

/-- An item is there just in the bounds. -/
theorem exists_get (hi : 1 ≤ i) (hn : i ≤ a.length) : ∃ x, get a i = some x :=
  Option.isSome_iff_exists.mp (get_isSome.mpr ⟨hi, hn⟩)

theorem bounds_of_get (h : get a i = some x) : 1 ≤ i ∧ i ≤ a.length :=
  get_isSome.mp (by rw [h]; rfl)

theorem mem_of_get (h : get a i = some x) : x ∈ a := by
  cases i with
  | zero => cases h
  | succ i => exact List.mem_of_getElem? h

theorem get_set_self (hi : 1 ≤ i) (hn : i ≤ a.length) : get (set a i x) i = some x := by
  cases i with
  | zero => omega
  | succ i => simp [get, set, Nat.lt_of_succ_le hn]

theorem get_set_of_ne (h : i ≠ j) : get (set a i x) j = get a j := by
  cases i with
  | zero => rfl
  | succ i =>
    cases j with
    | zero => rfl
    | succ j => simp [get, set, List.getElem?_set_ne (show i ≠ j by omega)]

theorem get_set (hi : 1 ≤ i) (hn : i ≤ a.length) (j : Nat) :
    get (set a i x) j = if i = j then some x else get a j := by
  split
  · rename_i h
    exact h ▸ get_set_self hi hn
  · rename_i h
    exact get_set_of_ne h

/-- Arrays of one length with the same items are equal. -/
theorem ext_get (hlen : a.length = b.length)
    (h : ∀ i, 1 ≤ i → i ≤ a.length → get a i = get b i) : a = b := by
  refine List.ext_getElem? fun i => ?_
  by_cases hi : i < a.length
  · exact h (i + 1) (by omega) (by omega)
  · rw [List.getElem?_eq_none (by omega), List.getElem?_eq_none (by omega)]

theorem set_get (h : get a i = some x) : set a i x = a := by
  obtain ⟨hi, hn⟩ := bounds_of_get h
  refine ext_get (length_set ..) fun j _ _ => ?_
  rw [get_set hi hn]
  split
  · rename_i e
    rw [← e, h]
  · rfl

/-- A hole that is filled with another item leaves a hole there. -/
theorem set_move_perm (hi : 1 ≤ i) (hn : i ≤ a.length) (hj : get a j = some y) (hne : i ≠ j) :
    (set (set a i y) j x).Perm (set a i x) := by
  obtain ⟨hj₁, hj₂⟩ := bounds_of_get hj
  cases i with
  | zero => omega
  | succ i =>
    cases j with
    | zero => omega
    | succ j =>
      have hi' : i < (a.set i x).length := by rw [List.length_set]; omega
      have hj' : j < (a.set i x).length := by rw [List.length_set]; omega
      have hy : (a.set i x)[j] = y := by
        rw [List.getElem_set_ne (by omega)]
        exact (List.getElem?_eq_some_iff.mp hj).2
      have hx : (a.set i x)[i] = x := List.getElem_set_self ..
      have hp := List.set_set_perm hi' hj'
      rwa [hx, hy, List.set_set] at hp

theorem swap_eq_some {b : List α} : swap a i j = some b ↔
    ∃ x y, get a i = some x ∧ get a j = some y ∧ set (set a i y) j x = b := by
  simp [swap, Option.bind_eq_some_iff]

/-- A swap undoes itself. -/
theorem swap_swap {b : List α} (h : swap a i j = some b) : swap b i j = some a := by
  obtain ⟨x, y, hx, hy, rfl⟩ := swap_eq_some.mp h
  obtain ⟨hi, hi'⟩ := bounds_of_get hx
  obtain ⟨hj, hj'⟩ := bounds_of_get hy
  have hget : ∀ n, get (set (set a i y) j x) n =
      if j = n then some x else if i = n then some y else get a n := by
    intro n
    rw [get_set hj (by rwa [length_set]), get_set hi hi']
  refine swap_eq_some.mpr ⟨if j = i then x else y, x, ?_, ?_, ?_⟩
  · rw [hget]
    split <;> simp
  · rw [hget, if_pos rfl]
  · refine ext_get (by simp) fun n _ _ => ?_
    have hset : get (set (set (set (set a i y) j x) i x) j (if j = i then x else y)) n =
        if j = n then some (if j = i then x else y) else if i = n then some x else
          get (set (set a i y) j x) n := by
      rw [get_set hj (by simpa using hj'), get_set hi (by simpa using hi')]
    rw [hset, hget]
    by_cases hjn : j = n
    · subst hjn
      by_cases hji : j = i
      · subst hji
        simp [hx]
      · simp [hji, hy]
    · by_cases hin : i = n
      · subst hin
        simp [hjn, hx]
      · simp [hjn, hin]

/-- The order of the two makes no difference. -/
theorem swap_comm (a : List α) (i j : Nat) : swap a i j = swap a j i := by
  have h : ∀ i j b, swap a i j = some b → swap a j i = some b := by
    intro i j b h
    obtain ⟨x, y, hx, hy, rfl⟩ := swap_eq_some.mp h
    obtain ⟨hi, hi'⟩ := bounds_of_get hx
    obtain ⟨hj, hj'⟩ := bounds_of_get hy
    refine swap_eq_some.mpr ⟨y, x, hy, hx, ext_get (by simp) fun n _ _ => ?_⟩
    rw [get_set hi (by rwa [length_set]), get_set hj hj', get_set hj (by rwa [length_set]),
      get_set hi hi']
    by_cases hin : i = n
    · subst hin
      by_cases hji : j = i
      · subst hji
        rw [if_pos rfl, if_pos rfl, ← hx, hy]
      · simp [hji]
    · simp [hin]
  exact Option.ext fun b => ⟨h i j b, h j i b⟩

/-- What `ipairs(a)` meets. -/
def ipairs (a : List α) : List (Nat × α) := (List.range' 1 a.length).zip a

theorem map_fst_ipairs (a : List α) : (ipairs a).map Prod.fst = List.range' 1 a.length :=
  List.map_fst_zip (by simp)

theorem map_snd_ipairs (a : List α) : (ipairs a).map Prod.snd = a :=
  List.map_snd_zip (by simp)

theorem nodup_ipairs (a : List α) : (ipairs a).Nodup :=
  List.Nodup.of_map Prod.fst (map_fst_ipairs a ▸ List.nodup_range')

theorem mem_ipairs : (i, x) ∈ ipairs a ↔ get a i = some x := by
  rw [List.mem_iff_getElem?]
  constructor
  · rintro ⟨n, hn⟩
    obtain ⟨hi, hx⟩ := List.getElem?_zip_eq_some.mp hn
    rw [List.getElem?_range' (List.getElem?_eq_some_iff.mp hx).1] at hi
    have hi : 1 + 1 * n = i := Option.some.inj hi
    obtain rfl : i = n + 1 := by omega
    exact hx
  · intro h
    obtain ⟨hi, hn⟩ := bounds_of_get h
    obtain ⟨n, rfl⟩ := Nat.exists_eq_succ_of_ne_zero (Nat.pos_iff_ne_zero.mp hi)
    refine ⟨n, List.getElem?_zip_eq_some.mpr ⟨?_, h⟩⟩
    rw [List.getElem?_range' (by omega)]
    simp [Nat.add_comm]

theorem snd_mem_of_mem_ipairs {e : Nat × α} (h : e ∈ ipairs a) : e.2 ∈ a :=
  map_snd_ipairs a ▸ List.mem_map_of_mem h

/-- The values of `i` in `for i = first, last do`. -/
def steps (first last : Int) : List Int :=
  (List.range (last + 1 - first).toNat).map fun k : Nat => first + k

theorem toNat_steps (first last : Nat) :
    (steps first last).map Int.toNat = List.range' first (last + 1 - first) := by
  have hn : ((last : Int) + 1 - first).toNat = last + 1 - first := by omega
  rw [steps, hn, List.map_map, List.range'_eq_map_range]
  refine List.map_congr_left fun k _ => ?_
  show ((first : Int) + k).toNat = first + k
  omega

/-- As many items as positions, where all are in the bounds. -/
theorem length_filterMap_get {is : List Nat} (h : ∀ i ∈ is, 1 ≤ i ∧ i ≤ a.length) :
    (is.filterMap (get a)).length = is.length := by
  induction is with
  | nil => rfl
  | cons i is ih =>
    obtain ⟨x, hx⟩ := exists_get (h i List.mem_cons_self).1 (h i List.mem_cons_self).2
    rw [List.filterMap_cons_some hx, List.length_cons, List.length_cons,
      ih fun j hj => h j (List.mem_cons_of_mem _ hj)]

/-- `table.remove(a, pos)`, which checks its position; one behind the last removes nothing. -/
def remove (a : List α) (pos : Nat) : Option (List α) :=
  if pos = a.length ∨ 1 ≤ pos ∧ pos ≤ a.length + 1 then some (a.eraseIdx (pos - 1)) else none

/-- What is behind the first `i` items moves down. -/
theorem remove_append {pre : List α} (hi : i = pre.length + 1) (a : List α) :
    remove (pre ++ a) i = some (pre ++ a.drop 1) := by
  subst hi
  rw [remove, if_pos (Or.inr ⟨by omega, by rw [List.length_append]; omega⟩),
    Nat.add_sub_cancel, List.eraseIdx_append_of_length_le (Nat.le_refl _), Nat.sub_self]
  cases a with
  | nil => rfl
  | cons x a => rfl

end SkynetHotfix.Lua.Seq
