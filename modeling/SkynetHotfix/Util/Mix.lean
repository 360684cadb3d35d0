import Mathlib.Data.Fintype.BigOperators
import Mathlib.Data.Nat.Factorial.BigOperators
import Mathlib.Order.Interval.Finset.Nat
import SkynetHotfix.Util.Permutation

/-!
# Shuffles

`mix_array` of `common/base/util.lua` and `table.mix` of `common/base/luaext.lua`,
as functions of their draws. Turn `i` puts an item of the rest at `i`, and which one is up to the draw
(`mixTurn_pick`); so the draws are to the orders of the positions one to one
(`mix_orders`).
-/

namespace SkynetHotfix.Util

open Arrange (pick)
open Lua

variable {α β : Type} {r r' : Nat → Nat} {k n i : Nat}

/-- The body of the loop, where `r i` is what `random(i, sz)` gives. -/
def mixTurn (r : Nat → Nat) (arr : List α) (i : Nat) : Option (List α) := do
  let t ← Seq.get arr i
  let x ← Seq.get arr (r i)
  some (Seq.set (Seq.set arr i x) (r i) t)

/-- `mix_array(arr)` -/
def mixArray (r : Nat → Nat) (arr : List α) : Option (List α) :=
  let sz := arr.length
  (List.range' 1 sz).foldlM (mixTurn r) arr

/-- `table.mix(arr)` -/
def tableMix (r : Nat → Nat) (arr : List α) : Option (List α) :=
  let sz := arr.length
  (List.range' 1 sz).foldlM (mixTurn r) arr

/-- The draws of a run on `n` items: `i ≤ r_i ≤ n`. -/
abbrev Draws (n : Nat) : Type := (i : Fin n) → Finset.Icc (i.val + 1) n

/-- What is drawn in turn `i`. -/
def Draws.draw (d : Draws n) (i : Nat) : Nat :=
  if h : i - 1 < n then d ⟨i - 1, h⟩ else 0

/-- The draws of the `n` turns from `k` on. -/
def Drawn (r : Nat → Nat) (k n : Nat) : Prop := ∀ i, k ≤ i → i < k + n → i ≤ r i ∧ r i < k + n

theorem mixTurn_eq_swap (r : Nat → Nat) (arr : List α) (i : Nat) :
    mixTurn r arr i = Seq.swap arr i (r i) := rfl

/-- A turn picks an item of the rest. -/
theorem mixTurn_pick {pre t : List α} {x : α} (hk : k = pre.length + 1) (hi : i ≤ t.length)
    (hr : r k = k + i) :
    mixTurn r (pre ++ x :: t) k = some (pre ++ (pick x t i).1 :: (pick x t i).2) := by
  rw [mixTurn_eq_swap, hr, Seq.swap_comm, swap_pick hk hi]

theorem mixTurn_map (f : α → β) (arr : List α) (i : Nat) :
    mixTurn r (arr.map f) i = (mixTurn r arr i).map (List.map f) := by
  have hget : ∀ j, Seq.get (arr.map f) j = (Seq.get arr j).map f := by
    intro j
    cases j with
    | zero => rfl
    | succ j => exact List.getElem?_map
  have hset : ∀ (a : List α) j x, Seq.set (a.map f) j (f x) = (Seq.set a j x).map f := by
    intro a j x
    cases j with
    | zero => rfl
    | succ j => exact List.map_set.symm
  simp only [mixTurn, hget]
  cases Seq.get arr i with
  | none => rfl
  | some t =>
    cases Seq.get arr (r i) with
    | none => rfl
    | some x => simp [hset]

/-- The shuffle does not look at the items. -/
theorem mixArray_map (f : α → β) (arr : List α) :
    mixArray r (arr.map f) = (mixArray r arr).map (List.map f) := by
  have key : ∀ (l : List Nat) (arr : List α), l.foldlM (mixTurn r) (arr.map f) =
      (l.foldlM (mixTurn r) arr).map (List.map f) := by
    intro l
    induction l with
    | nil => exact fun _ => rfl
    | cons i l ih =>
      intro arr
      rw [List.foldlM_cons, List.foldlM_cons, mixTurn_map]
      cases mixTurn r arr i with
      | none => rfl
      | some arr => exact ih arr
  rw [mixArray, List.length_map]
  exact key _ arr

/-- Only the draws of its turns matter to a loop. -/
theorem foldlM_mixTurn_congr {l : List Nat} (h : ∀ i ∈ l, r i = r' i) (arr : List α) :
    l.foldlM (mixTurn r) arr = l.foldlM (mixTurn r') arr := by
  induction l generalizing arr with
  | nil => rfl
  | cons i l ih =>
    obtain ⟨hi, h⟩ := List.forall_mem_cons.mp h
    have hturn : mixTurn r arr i = mixTurn r' arr i := by
      rw [mixTurn_eq_swap, mixTurn_eq_swap, hi]
    rw [List.foldlM_cons, List.foldlM_cons, hturn]
    cases mixTurn r' arr i with
    | none => rfl
    | some arr => exact ih h arr

/-- The first turn of a rest, and the turns after it. -/
theorem foldlM_mixTurn_cons {pre t : List α} {x : α} (hk : k = pre.length + 1)
    (hi : i ≤ t.length) (hr : r k = k + i) :
    (List.range' k (n + 1)).foldlM (mixTurn r) (pre ++ x :: t) =
      (List.range' (k + 1) n).foldlM (mixTurn r)
        ((pre ++ [(pick x t i).1]) ++ (pick x t i).2) := by
  rw [List.range'_succ, List.foldlM_cons, mixTurn_pick hk hi hr, List.append_assoc]
  rfl

theorem Drawn.first (h : Drawn r k (n + 1)) : ∃ i ≤ n, r k = k + i :=
  have hk := h k (Nat.le_refl k) (by omega)
  ⟨r k - k, by omega, by omega⟩

theorem Drawn.rest (h : Drawn r k (n + 1)) : Drawn r (k + 1) n := by
  intro i hk hi
  have h := h i (by omega) (by omega)
  omega

/-- The turns that are left permute what is not fixed yet. -/
theorem mix_rest_perm (pre rest : List α) (hk : k = pre.length + 1) (hn : rest.length = n)
    (hr : Drawn r k n) :
    ∃ out, (List.range' k n).foldlM (mixTurn r) (pre ++ rest) = some (pre ++ out) ∧
      out.Perm rest := by
  induction n generalizing k pre rest with
  | zero => exact ⟨rest, rfl, .refl _⟩
  | succ n ih =>
    cases rest with
    | nil => cases hn
    | cons x t =>
      have ht : t.length = n := by simpa using hn
      obtain ⟨i, hi, hrk⟩ := hr.first
      have hi : i ≤ t.length := ht ▸ hi
      obtain ⟨out, hu, hp⟩ := ih (k := k + 1) (pre ++ [(pick x t i).1])
        (pick x t i).2 (by simp [hk]) (by rw [Arrange.length_pick, ht]) hr.rest
      refine ⟨(pick x t i).1 :: out, ?_, (hp.cons _).trans (Arrange.pick_perm hi)⟩
      rw [foldlM_mixTurn_cons hk hi hrk, hu, List.append_assoc]
      rfl

/-- Each order of the rest is drawn. -/
theorem exists_drawn (pre rest : List α) {out : List α} (hk : k = pre.length + 1) (hn : rest.length = n)
    (hp : out.Perm rest) :
    ∃ r, Drawn r k n ∧
      (List.range' k n).foldlM (mixTurn r) (pre ++ rest) = some (pre ++ out) := by
  induction n generalizing k pre rest out with
  | zero =>
    rw [List.length_eq_zero_iff.mp hn] at hp ⊢
    rw [List.perm_nil.mp hp]
    exact ⟨id, fun i _ _ => by omega, rfl⟩
  | succ n ih =>
    cases rest with
    | nil => cases hn
    | cons x t =>
      have ht : t.length = n := by simpa using hn
      cases out with
      | nil => exact absurd hp.length_eq (by simp)
      | cons y out =>
        obtain ⟨i, hi, rfl⟩ := Arrange.exists_pick (hp.mem_iff.mp List.mem_cons_self)
        obtain ⟨r, hr, hu⟩ := ih (k := k + 1) (pre ++ [(pick x t i).1])
          (pick x t i).2 (by simp [hk]) (by rw [Arrange.length_pick, ht])
          (hp.trans (Arrange.pick_perm hi).symm).cons_inv
        -- the draws of the rest, with the one that puts `y` in front
        have hne : ∀ j, k + 1 ≤ j → Function.update r k (k + i) j = r j := fun j hj =>
          Function.update_of_ne (by omega) ..
        refine ⟨Function.update r k (k + i), fun j hj hj' => ?_, ?_⟩
        · rcases Nat.eq_or_lt_of_le hj with rfl | hj
          · rw [Function.update_self]
            omega
          · have := hr j hj (by omega)
            rw [hne j hj]
            omega
        · rw [foldlM_mixTurn_cons hk hi (Function.update_self ..),
            foldlM_mixTurn_congr fun j hj => hne j (List.mem_range'_1.mp hj).1, hu,
            List.append_assoc]
          rfl

/-- Different draws give different orders, where the items differ. -/
theorem drawn_unique (pre rest out : List α) (hk : k = pre.length + 1) (hn : rest.length = n)
    (hnodup : rest.Nodup) (hr : Drawn r k n) (hr' : Drawn r' k n)
    (hu : (List.range' k n).foldlM (mixTurn r) (pre ++ rest) = some (pre ++ out))
    (hu' : (List.range' k n).foldlM (mixTurn r') (pre ++ rest) = some (pre ++ out)) :
    ∀ i, k ≤ i → i < k + n → r i = r' i := by
  induction n generalizing k pre rest out with
  | zero => exact fun i _ _ => by omega
  | succ n ih =>
    cases rest with
    | nil => cases hn
    | cons x t =>
      have ht : t.length = n := by simpa using hn
      obtain ⟨i, hi, hrk⟩ := hr.first
      obtain ⟨j, hj, hrk'⟩ := hr'.first
      have hi : i ≤ t.length := ht ▸ hi
      have hj : j ≤ t.length := ht ▸ hj
      have hpick := fun i => Arrange.length_pick x t i
      rw [foldlM_mixTurn_cons hk hi hrk] at hu
      rw [foldlM_mixTurn_cons hk hj hrk'] at hu'
      obtain ⟨o, ho, hp⟩ := mix_rest_perm (k := k + 1) (n := n)
        (pre ++ [(pick x t i).1]) (pick x t i).2 (by simp [hk]) (by rw [hpick, ht]) hr.rest
      obtain ⟨o', ho', hp'⟩ := mix_rest_perm (k := k + 1) (n := n)
        (pre ++ [(pick x t j).1]) (pick x t j).2 (by simp [hk])
        (by rw [hpick, ht]) hr'.rest
      have e : pre ++ out = (pre ++ [(pick x t i).1]) ++ o := Option.some.inj (hu.symm.trans ho)
      have e' : pre ++ out = (pre ++ [(pick x t j).1]) ++ o' :=
        Option.some.inj (hu'.symm.trans ho')
      rw [List.append_assoc, List.append_cancel_left_eq] at e e'
      -- the item that is now at `k` tells the draw
      have hij : i = j := Arrange.eq_of_pick hnodup hi hj (List.cons.inj (e.symm.trans e')).1
      subst hij
      have hrest := ih (k := k + 1) (pre ++ [(pick x t i).1]) (pick x t i).2 o (by simp [hk])
        (by rw [hpick, ht])
        (List.nodup_cons.mp ((Arrange.pick_perm hi).nodup_iff.mpr hnodup)).2 hr.rest hr'.rest
        ho (hu'.trans (hu.symm.trans ho))
      intro a ha ha'
      rcases Nat.eq_or_lt_of_le ha with rfl | ha
      · rw [hrk, hrk']
      · exact hrest a ha (by omega)

/-! ## The draws of a run -/

theorem Draws.draw_succ (d : Draws n) (h : i < n) : d.draw (i + 1) = d ⟨i, h⟩ :=
  dif_pos (show i + 1 - 1 < n from h)

theorem Draws.drawn (d : Draws n) : Drawn d.draw 1 n := by
  intro i hi hn
  obtain ⟨i, rfl⟩ := Nat.exists_eq_succ_of_ne_zero (Nat.pos_iff_ne_zero.mp hi)
  have h := Finset.mem_Icc.mp (d ⟨i, by omega⟩).2
  rw [Nat.succ_eq_add_one, d.draw_succ (by omega)]
  simp only at h
  omega

/-- Draws are known by what is drawn. -/
theorem Draws.ext {d d' : Draws n} (h : ∀ i, 1 ≤ i → i < 1 + n → d.draw i = d'.draw i) :
    d = d' := by
  funext ⟨i, hi⟩
  have h := h (i + 1) (by omega) (by omega)
  rw [d.draw_succ hi, d'.draw_succ hi] at h
  exact Subtype.ext h

theorem exists_draws (hr : Drawn r 1 n) :
    ∃ d : Draws n, ∀ i, 1 ≤ i → i < 1 + n → d.draw i = r i := by
  have hmem : ∀ i : Fin n, r (i + 1) ∈ Finset.Icc (i.val + 1) n := by
    intro i
    have := hr (i + 1) (by omega) (by omega)
    exact Finset.mem_Icc.mpr (by omega)
  refine ⟨fun i => ⟨r (i + 1), hmem i⟩, fun i hi hn => ?_⟩
  obtain ⟨i, rfl⟩ := Nat.exists_eq_succ_of_ne_zero (Nat.pos_iff_ne_zero.mp hi)
  exact Draws.draw_succ _ (by omega)

theorem prod_card_draws (n : Nat) :
    ∏ i : Fin n, (Finset.Icc (i.val + 1) n).card = n.factorial := by
  have h : ∀ i : Fin n, (Finset.Icc (i.val + 1) n).card = n - i := by
    intro i
    rw [Nat.card_Icc]
    omega
  rw [Finset.prod_congr rfl fun i _ => h i, Fin.prod_univ_eq_prod_range fun i => n - i,
    ← Nat.descFactorial_eq_prod_range, Nat.descFactorial_self]

theorem mixArray_perm (d : Draws n) (arr : List α) (hn : arr.length = n) :
    ∃ arr', mixArray d.draw arr = some arr' ∧ arr'.Perm arr := by
  subst hn
  exact mix_rest_perm [] arr rfl rfl d.drawn

/-- An order of the positions is the result of one sequence of draws. -/
theorem existsUnique_draws {order : List Nat} (hp : order.Perm (List.range' 1 n)) :
    ∃! d : Draws n, mixArray d.draw (List.range' 1 n) = some order := by
  have hn : (List.range' 1 n).length = n := List.length_range'
  have hloop : ∀ r, mixArray r (List.range' 1 n) =
      (List.range' 1 n).foldlM (mixTurn r) ([] ++ List.range' 1 n) := by
    intro r
    rw [mixArray, hn]
    rfl
  obtain ⟨r, hr, hu⟩ := exists_drawn (k := 1) [] (List.range' 1 n) rfl hn hp
  obtain ⟨d, hd⟩ := exists_draws hr
  have hdu : mixArray d.draw (List.range' 1 n) = some order := by
    rw [hloop, foldlM_mixTurn_congr fun i hi => ?_]
    · exact hu
    · have hi := List.mem_range'_1.mp hi
      exact hd i hi.1 hi.2
  refine ⟨d, hdu, fun d' hdu' => Draws.ext ?_⟩
  exact drawn_unique [] (List.range' 1 n) order rfl hn List.nodup_range' d'.drawn d.drawn
    ((hloop _).symm.trans hdu') ((hloop _).symm.trans hdu)

/-- The chance of an order of `n` positions, if turn `i` draws each of `i..n` equally likely. -/
def orderChance (n : Nat) (order : List Nat) : Rat :=
  ∑ d : Draws n with mixArray d.draw (List.range' 1 n) = some order,
    ∏ i : Fin n, (1 : Rat) / (Finset.Icc (i.val + 1) n).card

theorem orderChance_eq {order : List Nat} (hp : order.Perm (List.range' 1 n)) :
    orderChance n order = 1 / n.factorial := by
  obtain ⟨d, hd, huniq⟩ := existsUnique_draws hp
  have hone : ({d : Draws n | mixArray d.draw (List.range' 1 n) = some order} : Finset _) = {d} := by
    ext d'
    simp only [Finset.mem_filter, Finset.mem_univ, true_and, Finset.mem_singleton]
    exact ⟨huniq d', fun h => h ▸ hd⟩
  rw [orderChance, hone, Finset.sum_singleton]
  simp only [one_div, Finset.prod_inv_distrib]
  rw [← prod_card_draws n, Nat.cast_prod]

/-- For the same draws the two functions give the same result, the items in an order of their
positions; each order comes of one sequence of draws, so uniform draws make them equally
likely. -/
theorem mix_orders (arr : List α) :
    (∀ d : Draws arr.length, ∃ arr' order, mixArray d.draw arr = some arr' ∧
      tableMix d.draw arr = some arr' ∧ arr'.Perm arr ∧
      mixArray d.draw (List.range' 1 arr.length) = some order ∧
      order.Perm (List.range' 1 arr.length) ∧ arr'.map some = order.map (Seq.get arr)) ∧
    (∀ order, order.Perm (List.range' 1 arr.length) →
      (∃! d : Draws arr.length, mixArray d.draw (List.range' 1 arr.length) = some order) ∧
      orderChance arr.length order = 1 / arr.length.factorial) ∧
    Fintype.card (Draws arr.length) = arr.length.factorial := by
  refine ⟨fun d => ?_, fun order hp => ⟨existsUnique_draws hp, orderChance_eq hp⟩, ?_⟩
  · obtain ⟨arr', hu, hp⟩ := mixArray_perm d arr rfl
    obtain ⟨order, ho, hpo⟩ := mixArray_perm d (List.range' 1 arr.length) List.length_range'
    refine ⟨arr', order, hu, hu, hp, ho, hpo, ?_⟩
    have hitems : (List.range' 1 arr.length).map (Seq.get arr) = arr.map some := by
      refine List.ext_getElem (by simp) fun i hi hi' => ?_
      have hi : i < arr.length := by simpa using hi'
      simp [Nat.add_comm 1 i, Seq.get, hi]
    have h := mixArray_map (r := d.draw) (Seq.get arr) (List.range' 1 arr.length)
    rw [hitems, mixArray_map, hu, ho] at h
    exact Option.some.inj h
  · rw [Fintype.card_pi, ← prod_card_draws]
    exact Finset.prod_congr rfl fun i _ => Fintype.card_coe _

/-- Three items. -/
theorem mix_orders_three :
    orderChance 3 [2, 3, 1] = 1 / 6 ∧
      ∃! d : Draws 3, mixArray d.draw [1, 2, 3] = some [2, 3, 1] := by
  have h := (mix_orders ["a", "b", "c"]).2.1 [2, 3, 1] (by decide)
  exact ⟨by simpa [Nat.factorial] using h.2, h.1⟩

end SkynetHotfix.Util
