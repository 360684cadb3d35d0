import SkynetHotfix.Lib.Arrange
import SkynetHotfix.Lib.Fuel
import SkynetHotfix.Lua.Seq

/-!
# Permutations

`getPermutation` of `common/base/util.lua`. `permute` swaps the items of its
argument in place and swaps them back; what it adds to `tbRes` are fresh tables
(`Adds`), with the arrangements of what is not fixed yet. So each arrangement
of the positions occurs once, and the argument is as it was
(`getPermutation_lists`).
-/

namespace SkynetHotfix.Util

open Function (update)
open Arrange (arrangements pick)
open Lua

variable {α : Type} {a : Nat}

/-- The tables with items of the argument, by identity, of which there are `size`, and `tbRes`. -/
structure Permuting (α : Type) where
  array : Nat → List α
  size : Nat
  tbRes : List Nat

/-- `a[i], a[k] = a[k], a[i]` -/
def swapItems (a i k : Nat) (s : Permuting α) : Fuel.Result Unit (Permuting α) :=
  match Seq.swap (s.array a) i k with
  | none => .error (some ())
  | some b => .ok { s with array := update s.array a b }

/-- `b`, with what `pairs(a)` meets, and `table.insert(tbRes,b)`. -/
def insertCopy (a : Nat) (s : Permuting α) : Permuting α where
  array := update s.array s.size (s.array a)
  size := s.size + 1
  tbRes := s.tbRes ++ [s.size]

/-- `permute(a,k)` -/
def permute (a fuel : Nat) : Nat → Permuting α → Fuel.Result Unit (Permuting α) :=
  Fuel.run (fun rec k s =>
    let len := (s.array a).length
    if len = k then .ok (insertCopy a s)
    else
      (List.range' k (len + 1 - k)).foldlM (fun s i => do
        let s ← swapItems a i k s
        let s ← rec (k + 1) s
        swapItems a i k s) s) fuel

/-- `getPermutation(tb)` -/
def getPermutation (tb fuel : Nat) (array : Nat → List α) (size : Nat) :
    Fuel.Result Unit (Permuting α) :=
  permute tb fuel 1 ⟨array, size, []⟩

/-- Fresh tables are added to `tbRes`, which are `L` in the end; the other tables are as they were,
up to `a`. -/
structure Adds (a : Nat) (L : List (List α)) (s s' : Permuting α) : Prop where
  size : s'.size = s.size + L.length
  tbRes : s'.tbRes = s.tbRes ++ List.range' s.size L.length
  new : (List.range' s.size L.length).map s'.array = L
  old : ∀ x < s.size, x ≠ a → s'.array x = s.array x

namespace Adds

variable {L L' : List (List α)} {s s' s'' : Permuting α}

theorem trans (ha : a < s.size) (h : Adds a L s s') (h' : Adds a L' s' s'') :
    Adds a (L ++ L') s s'' where
  size := by rw [h'.size, h.size, List.length_append, Nat.add_assoc]
  tbRes := by
    rw [h'.tbRes, h.tbRes, h.size, List.append_assoc, List.length_append, List.range'_append_1]
  new := by
    rw [List.length_append, ← List.range'_append_1, List.map_append, ← h.size, h'.new]
    congr 1
    refine (List.map_congr_left fun x hx => ?_).trans h.new
    have hx := List.mem_range'_1.mp hx
    have hsize := h.size
    exact h'.old x (by omega) (by omega)
  old x hx hne := by
    have hsize := h.size
    rw [h'.old x (by omega) hne, h.old x hx hne]

/-- Only `a` is changed. -/
theorem of_update (s : Permuting α) (b : List α) :
    Adds a [] s { s with array := update s.array a b } where
  size := rfl
  tbRes := by simp
  new := rfl
  old x _ hne := Function.update_of_ne hne ..

end Adds

/-- The swap of the first item of a rest with another picks that one. -/
theorem swap_pick {pre t : List α} {x : α} {k i : Nat} (hk : k = pre.length + 1)
    (hi : i ≤ t.length) : Seq.swap (pre ++ x :: t) (k + i) k =
      some (pre ++ (pick x t i).1 :: (pick x t i).2) := by
  subst hk
  have hx : Seq.get (pre ++ x :: t) (pre.length + 1) = some x := by simp [Seq.get]
  cases i with
  | zero =>
    refine Seq.swap_eq_some.mpr ⟨x, x, hx, hx, ?_⟩
    rw [Seq.set_get hx, Seq.set_get hx]
    rfl
  | succ i =>
    have hi : i < t.length := hi
    have e : pre.length + 1 + (i + 1) = (pre.length + (i + 1)) + 1 := by omega
    have hy : Seq.get (pre ++ x :: t) ((pre.length + (i + 1)) + 1) = some t[i] := by
      simp [Seq.get, List.getElem?_append_right, List.getElem?_eq_getElem hi]
    rw [e]
    refine Seq.swap_eq_some.mpr ⟨t[i], x, hy, hx, ?_⟩
    simp [Seq.set, pick, List.getD_eq_getElem?_getD, hi, List.set_append_right]

/-- A turn picks an item, arranges the rest and puts the item back. -/
theorem turn_adds {rec : Permuting α → Fuel.Result Unit (Permuting α)} {L : List (List α)}
    {pre t : List α} {x : α} {k i : Nat} (hk : k = pre.length + 1) (hi : i ≤ t.length)
    (hrec : ∀ s, a < s.size → s.array a = pre ++ (pick x t i).1 :: (pick x t i).2 →
      ∃ s', rec s = .ok s' ∧ s'.array a = s.array a ∧ Adds a L s s')
    {s : Permuting α} (ha : a < s.size) (hs : s.array a = pre ++ x :: t) :
    ∃ s', (do
        let s ← swapItems a (k + i) k s
        let s ← rec s
        swapItems a (k + i) k s) = .ok s' ∧ s'.array a = pre ++ x :: t ∧ Adds a L s s' := by
  have hsw := swap_pick (x := x) hk hi
  have hu₁ : swapItems a (k + i) k s = .ok { s with
      array := update s.array a (pre ++ (pick x t i).1 :: (pick x t i).2) } := by
    rw [swapItems, hs, hsw]
  obtain ⟨s₂, hu₂, hs₂, hadds⟩ := hrec { s with
    array := update s.array a (pre ++ (pick x t i).1 :: (pick x t i).2) } ha (by simp)
  have hs₂ : s₂.array a = pre ++ (pick x t i).1 :: (pick x t i).2 := by simp [hs₂]
  have hu₃ : swapItems a (k + i) k s₂ = .ok { s₂ with
      array := update s₂.array a (pre ++ x :: t) } := by
    rw [swapItems, hs₂, Seq.swap_swap hsw]
  refine ⟨_, Fuel.bind_eq_ok.mpr ⟨_, hu₁, Fuel.bind_eq_ok.mpr ⟨s₂, hu₂, hu₃⟩⟩, by simp, ?_⟩
  have h := ((Adds.of_update s _).trans ha hadds).trans ha (.of_update s₂ (pre ++ x :: t))
  rwa [List.nil_append, List.append_nil] at h

/-- The turns of a loop, each of which leaves the array as it was. -/
theorem loop_adds {f : Permuting α → Nat → Fuel.Result Unit (Permuting α)}
    {L : Nat → List (List α)} {whole : List α} {l : List Nat}
    (hf : ∀ i ∈ l, ∀ s, a < s.size → s.array a = whole →
      ∃ s', f s i = .ok s' ∧ s'.array a = whole ∧ Adds a (L i) s s') :
    ∀ s, a < s.size → s.array a = whole →
      ∃ s', l.foldlM f s = .ok s' ∧ s'.array a = whole ∧ Adds a (l.flatMap L) s s' := by
  induction l with
  | nil => exact fun s _ hs => ⟨s, rfl, hs, rfl, by simp, rfl, fun _ _ _ => rfl⟩
  | cons i l ih =>
    intro s ha hs
    obtain ⟨hturn, hf⟩ := List.forall_mem_cons.mp hf
    obtain ⟨s₁, hu₁, hs₁, h₁⟩ := hturn s ha hs
    obtain ⟨s', hu', hs', h'⟩ := ih hf s₁ (by rw [h₁.size]; omega) hs₁
    refine ⟨s', ?_, hs', h₁.trans ha h'⟩
    rw [List.foldlM_cons]
    exact Fuel.bind_eq_ok.mpr ⟨s₁, hu₁, hu'⟩

/-- A call of `permute` adds the arrangements of what is from `k` on, and restores its argument. -/
theorem permute_adds (d : Nat) : ∀ (fuel k : Nat) (s : Permuting α) (pre suf : List α),
    d < fuel → a < s.size → s.array a = pre ++ suf → k = pre.length + 1 → suf.length = d + 1 →
    ∃ s', permute a fuel k s = .ok s' ∧ s'.array a = s.array a ∧
      Adds a ((arrangements (d + 1) suf).map (pre ++ ·)) s s' := by
  induction d with
  | zero =>
    intro fuel k s pre suf hf ha hs hk hlen
    obtain ⟨fuel, rfl⟩ := Nat.exists_eq_succ_of_ne_zero (Nat.pos_iff_ne_zero.mp hf)
    obtain ⟨x, rfl⟩ := List.length_eq_one_iff.mp hlen
    refine ⟨insertCopy a s, ?_, Function.update_of_ne (by omega) .., ?_⟩
    · have hlen : (s.array a).length = k := by rw [hs, hk, List.length_append]; rfl
      simp only [permute, Fuel.run, if_pos hlen]
    · have hL : (arrangements 1 [x]).map (pre ++ ·) = [s.array a] := by
        simp [arrangements, pick, hs]
      rw [hL]
      refine ⟨rfl, by simp [insertCopy], by simp [insertCopy], fun y hy _ => ?_⟩
      exact Function.update_of_ne (by omega) ..
  | succ d ih =>
    intro fuel k s pre suf hf ha hs hk hlen
    have hf' : fuel ≠ 0 := by omega
    obtain ⟨fuel, rfl⟩ := Nat.exists_eq_succ_of_ne_zero hf'
    cases suf with
    | nil => cases hlen
    | cons x t =>
      have ht : t.length = d + 1 := by simpa using hlen
      have hlen : (s.array a).length = k + (d + 1) := by
        rw [hs, hk, List.length_append, List.length_cons, ht]
        omega
      have hrec : ∀ i s, a < s.size → s.array a = pre ++ (pick x t i).1 :: (pick x t i).2 →
          ∃ s', permute a fuel (k + 1) s = .ok s' ∧ s'.array a = s.array a ∧
            Adds a ((arrangements (d + 1) (pick x t i).2).map
              ((pre ++ [(pick x t i).1]) ++ ·)) s s' := fun i s ha hs =>
        ih fuel (k + 1) s (pre ++ [(pick x t i).1]) (pick x t i).2 (by omega) ha (by simp [hs])
          (by simp [hk]) (by rw [Arrange.length_pick, ht])
      obtain ⟨s', hu, hs', h⟩ := loop_adds (l := List.range (d + 2)) (fun i hi s ha hs =>
        turn_adds hk (ht ▸ Nat.le_of_lt_succ (List.mem_range.mp hi)) (hrec i) ha hs) s ha hs
      refine ⟨s', ?_, by rw [hs', hs], ?_⟩
      · rw [← hu, permute, Fuel.run]
        simp only [hlen]
        rw [if_neg (by omega), List.range'_eq_map_range, show k + (d + 1) + 1 - k = d + 2 by omega,
          List.foldlM_map]
        rfl
      · simpa [arrangements, List.map_flatMap, Function.comp_def] using h

/-- `getPermutation` lists each arrangement of the positions once, in fresh tables that no other
swap changes, and its argument is as it was. -/
theorem getPermutation_lists (tb : Nat) (array : Nat → List α) (size : Nat) (htb : tb < size)
    (hn : 1 ≤ (array tb).length) :
    ∃ F, ∀ fuel ≥ F, ∃ s', getPermutation tb fuel array size = .ok s' ∧ s'.array tb = array tb ∧
      (∀ x < size, s'.array x = array x) ∧ (∀ x ∈ s'.tbRes, size ≤ x) ∧ s'.tbRes.Nodup ∧
      ∃ S : List (List (Fin (array tb).length)), S.Nodup ∧
        (∀ p, p ∈ S ↔ p.Perm (List.finRange _)) ∧ S.length = (array tb).length.factorial ∧
        s'.tbRes.map s'.array = S.map (List.map (array tb).get) := by
  obtain ⟨d, hd⟩ : ∃ d, (array tb).length = d + 1 := ⟨_, (Nat.succ_pred_eq_of_pos hn).symm⟩
  refine ⟨d + 1, fun fuel hf => ?_⟩
  obtain ⟨s', hu, hs', h⟩ := permute_adds d fuel 1 ⟨array, size, []⟩ [] (array tb) hf htb rfl rfl hd
  have htbRes : s'.tbRes = List.range' size (arrangements (d + 1) (array tb)).length := by
    simpa using h.tbRes
  have hnew : s'.tbRes.map s'.array = arrangements (d + 1) (array tb) := by
    rw [htbRes]
    simpa using h.new
  refine ⟨s', hu, hs', fun x hx => ?_, fun x hx => ?_, ?_,
    arrangements (d + 1) (List.finRange _), ?_, ?_, ?_, ?_⟩
  · by_cases hxtb : x = tb
    · rw [hxtb, hs']
    · exact h.old x hx hxtb
  · rw [htbRes] at hx
    exact (List.mem_range'_1.mp hx).1
  · rw [htbRes]
    exact List.nodup_range'
  · exact Arrange.nodup_arrangements (by rw [List.length_finRange, hd]) (List.nodup_finRange _)
  · exact fun p => Arrange.mem_arrangements (by rw [List.length_finRange, hd])
  · rw [Arrange.length_arrangements (by rw [List.length_finRange, hd]), hd]
  · rw [hnew, ← Arrange.arrangements_map, List.map_get_finRange]

/-- A table of two items, next to an empty one. -/
theorem getPermutation_lists_pair :
    1 < 2 ∧ ∃ F, ∀ fuel ≥ F, ∃ s',
      getPermutation 1 fuel (fun x => if x = 1 then ["a", "b"] else []) 2 = .ok s' ∧
      s'.array 1 = ["a", "b"] := by
  obtain ⟨F, h⟩ := getPermutation_lists 1 (fun x => if x = 1 then ["a", "b"] else []) 2
    (by decide) (by decide)
  refine ⟨by decide, F, fun fuel hf => ?_⟩
  obtain ⟨s', hu, hs', -⟩ := h fuel hf
  exact ⟨s', hu, hs'⟩

end SkynetHotfix.Util
