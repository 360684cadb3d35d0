import Mathlib.Data.List.Perm.Basic
import SkynetHotfix.Lib.Weighted
import SkynetHotfix.Lua.Number
import SkynetHotfix.Lua.Seq

/-!
# Draws by rate

`rand_array` and `rand_array_p` of `common/base/util.lua`, for what `random`
gives. What the second loop finds is the choice by weight
(`locate_eq_pick`) where an entry that is filtered out weighs nothing, so it
fits the sum of the first loop, in any order of the entries (`rand_array_rates`).
The sums are Lua integers, which have to hold the total of the rates
(`rates_wrap`).
-/

namespace SkynetHotfix.Util

open Function (update)
open Weighted (pick total)
open Lua

variable {V K : Type} {arr : List V} {k : Nat} {v : V}

/-- What the two raise. -/
inductive RandError
  /-- `v[rate]` is nil -/
  | arithmetic
  /-- `random(sum)` without a number to give -/
  | emptyInterval
  deriving DecidableEq, Repr

/-- `v[rate]`, as a number -/
def rateOf (index : V → String → Option Int) (rate : String) (v : V) : Except RandError Int :=
  match index v rate with
  | none => .error .arithmetic
  | some x => .ok x

/-- `random(sum)`, which checks its interval. -/
def randomOf (random : Int → Int) (sum : Int) : Except RandError Int :=
  if sum < 1 then .error .emptyInterval else .ok (random sum)

/-- The locals `sum` and `exclude`. -/
structure RateSum where
  sum : Int
  exclude : Nat → Bool

/-- The body of the first loop of `rand_array`. -/
def addRate (index : V → String → Option Int) (rate : String)
    (filter_call : Option (Nat → V → Bool)) (s : RateSum) (e : Nat × V) :
    Except RandError RateSum := do
  let (rm, exclude) := match filter_call with
    | none => (false, s.exclude)
    | some f => (!f e.1 e.2, update s.exclude e.1 (!f e.1 e.2))
  if rm then .ok ⟨s.sum, exclude⟩
  else
    let x ← rateOf index rate e.2
    .ok ⟨wrap (s.sum + x), exclude⟩

/-- The second loop, from an entry on; `exclude` are the keys it passes over. -/
def locate (index : V → String → Option Int) (rate : String) (exclude : K → Bool) (r : Int) :
    Int → List (K × V) → Except RandError (Option (K × V))
  | _, [] => .ok none
  | last, (k, v) :: rest =>
    if exclude k then locate index rate exclude r last rest
    else do
      let x ← rateOf index rate v
      if last < r ∧ r ≤ wrap (last + x) then .ok (some (k, v))
      else locate index rate exclude r (wrap (last + x)) rest

/-- `rand_array(arr, rate, filter_call)` -/
def randArray (index : V → String → Option Int) (arr : List V) (rate : Option String)
    (filter_call : Option (Nat → V → Bool)) (random : Int → Int) :
    Except RandError (Option (Nat × V)) := do
  let rate := rate.getD "rate"
  let s ← (Seq.ipairs arr).foldlM (addRate index rate filter_call) ⟨0, fun _ => false⟩
  let r ← randomOf random s.sum
  locate index rate s.exclude r 0 (Seq.ipairs arr)

/-- `rand_array_p(arr, rate)`, where `pairs` is what `pairs(arr)` meets. -/
def randArrayP (index : V → String → Option Int) (pairs : List (K × V)) (rate : Option String)
    (random : Int → Int) : Except RandError (Option (K × V)) := do
  let rate := rate.getD "rate"
  let sum ← pairs.foldlM (fun sum e => do
    let x ← rateOf index rate e.2
    .ok (wrap (sum + x))) (0 : Int)
  let r ← randomOf random sum
  locate index rate (fun _ => false) r 0 pairs

/-! ## The entries that count -/

variable {index : V → String → Option Int} {rate : String} {w : V → Nat}
  {filter_call : Option (Nat → V → Bool)}

/-- `filter_call` is not given, or holds of the entry. -/
def passes (filter_call : Option (Nat → V → Bool)) (e : Nat × V) : Bool :=
  filter_call.all fun f => f e.1 e.2

/-- The rate of an entry that counts. -/
def weight (w : V → Nat) (filter_call : Option (Nat → V → Bool)) (e : Nat × V) : Nat :=
  if passes filter_call e then w e.2 else 0

/-- A sum of rates that fits. -/
theorem wrap_add {sum : Int} {n : Nat} (h₀ : 0 ≤ sum) (hmax : sum + n ≤ maxInteger) :
    wrap (sum + n) = sum + n := by
  unfold maxInteger at hmax
  exact wrap_of_le (by unfold maxInteger; omega) hmax

/-- A turn adds the rate of an entry that counts, and notes the others. -/
theorem addRate_eq {e : Nat × V} {s : RateSum}
    (hrate : passes filter_call e → index e.2 rate = some (w e.2 : Int)) (h₀ : 0 ≤ s.sum)
    (hmax : s.sum + weight w filter_call e ≤ maxInteger) :
    ∃ s', addRate index rate filter_call s e = .ok s' ∧
      s'.sum = s.sum + weight w filter_call e ∧
      (s.exclude e.1 = false → s'.exclude e.1 = !passes filter_call e) ∧
      ∀ k ≠ e.1, s'.exclude k = s.exclude k := by
  have hx : passes filter_call e → rateOf index rate e.2 = .ok (w e.2 : Int) := by
    intro hp
    rw [rateOf, hrate hp]
  cases filter_call with
  | none =>
    have hsum : wrap (s.sum + w e.2) = s.sum + w e.2 := wrap_add h₀ hmax
    refine ⟨⟨s.sum + w e.2, s.exclude⟩, ?_, rfl, id, fun _ _ => rfl⟩
    simp only [addRate, hx rfl]
    show Except.ok (RateSum.mk (wrap (s.sum + w e.2)) s.exclude) = _
    rw [hsum]
  | some f =>
    have hne : ∀ k ≠ e.1, update s.exclude e.1 (!f e.1 e.2) k = s.exclude k := fun k hk =>
      Function.update_of_ne hk ..
    refine ⟨⟨s.sum + weight w (some f) e, update s.exclude e.1 (!f e.1 e.2)⟩, ?_, rfl,
      fun _ => Function.update_self .., hne⟩
    cases hf : f e.1 e.2 with
    | false => simp [addRate, weight, passes, hf]
    | true =>
      have hw : weight w (some f) e = w e.2 := by simp [weight, passes, hf]
      have hsum : wrap (s.sum + w e.2) = s.sum + w e.2 := wrap_add h₀ (hw ▸ hmax)
      simp only [addRate, hf, hx hf, hw]
      show Except.ok (RateSum.mk (wrap (s.sum + w e.2)) _) = _
      rw [hsum]

/-- The first loop: the sum of the rates that count, and whom the second passes over. -/
theorem addRates_eq (filter_call : Option (Nat → V → Bool)) {l : List (Nat × V)}
    (hn : (l.map Prod.fst).Nodup)
    (hrate : ∀ e ∈ l, passes filter_call e → index e.2 rate = some (w e.2 : Int)) (s : RateSum)
    (hs : ∀ e ∈ l, s.exclude e.1 = false) (h₀ : 0 ≤ s.sum)
    (hmax : s.sum + total (weight w filter_call) l ≤ maxInteger) :
    ∃ s', l.foldlM (addRate index rate filter_call) s = .ok s' ∧
      s'.sum = s.sum + total (weight w filter_call) l ∧
      (∀ e ∈ l, s'.exclude e.1 = !passes filter_call e) ∧
      ∀ k, k ∉ l.map Prod.fst → s'.exclude k = s.exclude k := by
  induction l generalizing s with
  | nil => exact ⟨s, rfl, by simp, by simp, fun _ _ => rfl⟩
  | cons e l ih =>
    obtain ⟨hrate₁, hrate⟩ := List.forall_mem_cons.mp hrate
    obtain ⟨hs₁, hs⟩ := List.forall_mem_cons.mp hs
    obtain ⟨he, hn⟩ := List.nodup_cons.mp hn
    rw [Weighted.total_cons, Int.natCast_add] at hmax
    obtain ⟨s₁, hu₁, hsum₁, hex₁, hne₁⟩ := addRate_eq (s := s) hrate₁ h₀ (by omega)
    have hkeys : ∀ e' ∈ l, e'.1 ≠ e.1 := fun e' he' h => he (h ▸ List.mem_map_of_mem he')
    have hs₁' : ∀ e' ∈ l, s₁.exclude e'.1 = false := fun e' he' => by
      rw [hne₁ _ (hkeys e' he'), hs e' he']
    obtain ⟨s', hu', hsum', hex', hne'⟩ := ih hn hrate s₁ hs₁' (by omega) (by omega)
    refine ⟨s', ?_, ?_, List.forall_mem_cons.mpr ⟨?_, hex'⟩, fun k hk => ?_⟩
    · rw [List.foldlM_cons, hu₁]
      exact hu'
    · rw [hsum', hsum₁, Weighted.total_cons, Int.natCast_add, Int.add_assoc]
    · rw [hne' _ he, hex₁ hs₁]
    · obtain ⟨hk₁, hk⟩ := not_or.mp (mt List.mem_cons.mpr hk)
      rw [hne' k hk, hne₁ k hk₁]

/-- The first loop of `rand_array_p`. -/
theorem sumRates_eq {l : List (K × V)} (hrate : ∀ e ∈ l, index e.2 rate = some (w e.2 : Int))
    {sum : Int} (h₀ : 0 ≤ sum) (hmax : sum + total (fun e => w e.2) l ≤ maxInteger) :
    l.foldlM (fun sum e => do
      let x ← rateOf index rate e.2
      .ok (wrap (sum + x))) sum = .ok (sum + total (fun e => w e.2) l) := by
  induction l generalizing sum with
  | nil => simp [pure, Except.pure]
  | cons e l ih =>
    obtain ⟨hrate₁, hrate⟩ := List.forall_mem_cons.mp hrate
    rw [Weighted.total_cons, Int.natCast_add] at hmax
    have hx : rateOf index rate e.2 = .ok (w e.2 : Int) := by rw [rateOf, hrate₁]
    have hsum : wrap (sum + w e.2) = sum + w e.2 := wrap_add h₀ (by omega)
    rw [List.foldlM_cons, hx, Weighted.total_cons, Int.natCast_add, ← Int.add_assoc]
    show l.foldlM _ (wrap (sum + w e.2)) = _
    rw [hsum]
    exact ih hrate (by omega) (by omega)

/-- The second loop chooses by weight, where what it passes over weighs nothing. -/
theorem locate_eq_pick {exclude : K → Bool} {l : List (K × V)} (w' : K × V → Nat) (r last : Int)
    (hskip : ∀ e ∈ l, exclude e.1 → w' e = 0)
    (hrate : ∀ e ∈ l, exclude e.1 = false → index e.2 rate = some (w' e : Int)) (h₀ : 0 ≤ last)
    (hmax : last + total w' l ≤ maxInteger) :
    locate index rate exclude r last l = .ok (pick w' r last l) := by
  induction l generalizing last with
  | nil => rfl
  | cons e l ih =>
    obtain ⟨k, v⟩ := e
    obtain ⟨hskip₁, hskip⟩ := List.forall_mem_cons.mp hskip
    obtain ⟨hrate₁, hrate⟩ := List.forall_mem_cons.mp hrate
    rw [Weighted.total_cons, Int.natCast_add] at hmax
    rw [locate, pick]
    cases hk : exclude k with
    | true =>
      rw [if_pos rfl, hskip₁ hk, if_neg (by omega), ih last hskip hrate h₀ (by omega),
        Int.natCast_zero, Int.add_zero]
    | false =>
      have hx : rateOf index rate v = .ok (w' (k, v) : Int) := by rw [rateOf, hrate₁ hk]
      have hlast : wrap (last + w' (k, v)) = last + w' (k, v) := wrap_add h₀ (by omega)
      rw [if_neg (by simp), hx]
      show (if last < r ∧ r ≤ wrap (last + w' (k, v)) then _ else
        locate index rate exclude r (wrap (last + w' (k, v))) l) = _
      rw [hlast]
      split
      · rfl
      · exact ih _ hskip hrate (by omega) (by omega)

/-- `rand_array` is the choice by weight among the entries. -/
theorem randArray_eq_pick {rate : Option String} (random : Int → Int)
    (hrate : ∀ v ∈ arr, index v (rate.getD "rate") = some (w v : Int))
    (hpos : 0 < total (weight w filter_call) (Seq.ipairs arr))
    (hmax : (total (weight w filter_call) (Seq.ipairs arr) : Int) ≤ maxInteger) :
    randArray index arr rate filter_call random =
      .ok (pick (weight w filter_call)
        (random (total (weight w filter_call) (Seq.ipairs arr))) 0 (Seq.ipairs arr)) := by
  have hn : ((Seq.ipairs arr).map Prod.fst).Nodup := Seq.map_fst_ipairs arr ▸ List.nodup_range'
  obtain ⟨s, hu, hsum, hex, -⟩ := addRates_eq filter_call hn
    (fun e he _ => hrate e.2 (Seq.snd_mem_of_mem_ipairs he)) ⟨0, fun _ => false⟩
    (fun _ _ => rfl) le_rfl (by simpa using hmax)
  have hrandom : randomOf random s.sum =
      .ok (random (total (weight w filter_call) (Seq.ipairs arr))) := by
    rw [hsum, randomOf, if_neg (by simp only; omega)]
    simp
  have hskip : ∀ e ∈ Seq.ipairs arr, s.exclude e.1 → weight w filter_call e = 0 := by
    intro e he h
    rw [hex e he] at h
    have hp : ¬ passes filter_call e := by simpa using h
    rw [weight, if_neg hp]
  have hcount : ∀ e ∈ Seq.ipairs arr, s.exclude e.1 = false →
      index e.2 (rate.getD "rate") = some (weight w filter_call e : Int) := by
    intro e he h
    rw [hex e he] at h
    have hp : passes filter_call e := by simpa using h
    rw [weight, if_pos hp]
    exact hrate e.2 (Seq.snd_mem_of_mem_ipairs he)
  rw [randArray, hu]
  show (do
    let r ← randomOf random s.sum
    locate index (rate.getD "rate") s.exclude r 0 (Seq.ipairs arr)) = _
  rw [hrandom]
  exact locate_eq_pick _ _ _ hskip hcount le_rfl (by simpa using hmax)

/-- So is `rand_array_p`, among the entries in the order of `pairs`. -/
theorem randArrayP_eq_pick {rate : Option String} (random : Int → Int) {pairs : List (K × V)}
    (hrate : ∀ e ∈ pairs, index e.2 (rate.getD "rate") = some (w e.2 : Int))
    (hpos : 0 < total (fun e : K × V => w e.2) pairs)
    (hmax : (total (fun e : K × V => w e.2) pairs : Int) ≤ maxInteger) :
    randArrayP index pairs rate random =
      .ok (pick (fun e => w e.2) (random (total (fun e : K × V => w e.2) pairs)) 0 pairs) := by
  have hrandom : randomOf random (0 + total (fun e : K × V => w e.2) pairs) =
      .ok (random (total (fun e : K × V => w e.2) pairs)) := by
    rw [randomOf, if_neg (by omega), Int.zero_add]
  have hsum := sumRates_eq (w := w) hrate le_rfl (by simpa using hmax)
  rw [randArrayP, hsum]
  show (do
    let r ← randomOf random (0 + total (fun e : K × V => w e.2) pairs)
    locate index (rate.getD "rate") (fun _ => false) r 0 pairs) = _
  rw [hrandom]
  exact locate_eq_pick _ _ _ (fun e _ h => nomatch h) (fun e he _ => hrate e he) le_rfl
    (by simpa using hmax)

/-! ## The draws of an entry -/

/-- How many of the numbers that `random(n)` may give make `f` return the entry `e`. -/
def drawCount [DecidableEq K] [DecidableEq V]
    (f : (Int → Int) → Except RandError (Option (K × V))) (n : Nat) (e : K × V) : Nat :=
  (List.range' 1 n).countP fun r : Nat => f (update id (n : Int) (r : Int)) = .ok (some e)

/-- A choice by weight counts the weight of each item. -/
theorem drawCount_pick [DecidableEq K] [DecidableEq V]
    {f : (Int → Int) → Except RandError (Option (K × V))} {w' : K × V → Nat} {l : List (K × V)}
    (hf : ∀ random, f random = .ok (pick w' (random (total w' l : Nat)) 0 l)) (hn : l.Nodup)
    (e : K × V) : drawCount f (total w' l) e = if e ∈ l then w' e else 0 := by
  have hdraw : ∀ r : Nat, f (update id ((total w' l : Nat) : Int) (r : Int)) = .ok (some e) ↔
      pick w' r 0 l = some e := by
    intro r
    rw [hf, Function.update_self, Except.ok.injEq]
  simp only [drawCount, hdraw]
  split
  · rename_i he
    exact Weighted.countP_pick hn he
  · rename_i he
    refine List.countP_eq_zero.mpr fun r _ h => ?_
    exact he (Weighted.of_pick (by simpa using h)).1

/-- Each draw returns an entry that counts, and each entry is returned for as many draws as its
rate, where the total of the rates that count is an integer of Lua; without a filter the same holds
of `rand_array_p`, in whichever order `pairs` meets them. -/
theorem rand_array_rates [DecidableEq V] (index : V → String → Option Int) (arr : List V)
    (rate : Option String) (filter_call : Option (Nat → V → Bool)) (w : V → Nat)
    (hrate : ∀ v ∈ arr, index v (rate.getD "rate") = some (w v : Int)) (n : Nat)
    (hn : n = total (weight w filter_call) (Seq.ipairs arr)) (hpos : 0 < n)
    (hmax : (n : Int) ≤ maxInteger) :
    (∀ random : Int → Int, 1 ≤ random n → random n ≤ n →
      ∃ k v, randArray index arr rate filter_call random = .ok (some (k, v)) ∧
        Seq.get arr k = some v ∧ passes filter_call (k, v) ∧ 0 < w v) ∧
    (∀ k v, Seq.get arr k = some v →
      drawCount (randArray index arr rate filter_call) n (k, v) =
        if passes filter_call (k, v) then w v else 0) ∧
    (filter_call = none → ∀ pairs : List (Nat × V), pairs.Perm (Seq.ipairs arr) →
      (∀ random : Int → Int, 1 ≤ random n → random n ≤ n →
        ∃ k v, randArrayP index pairs rate random = .ok (some (k, v)) ∧
          Seq.get arr k = some v ∧ 0 < w v) ∧
      ∀ e, drawCount (randArrayP index pairs rate) n e =
        drawCount (randArray index arr rate none) n e) := by
  subst hn
  have hrun : ∀ random, randArray index arr rate filter_call random = _ := fun random =>
    randArray_eq_pick random hrate hpos hmax
  refine ⟨fun random h₁ h₂ => ?_, fun k v hk => ?_, fun hnone pairs hp => ?_⟩
  · obtain ⟨⟨k, v⟩, he⟩ := Weighted.exists_pick (w := weight w filter_call) (l := Seq.ipairs arr)
      (show 0 < random (total (weight w filter_call) (Seq.ipairs arr)) by omega) (by omega)
    obtain ⟨hmem, hw, -⟩ := Weighted.of_pick he
    refine ⟨k, v, by rw [hrun, he], Seq.mem_ipairs.mp hmem, ?_⟩
    by_cases hpass : passes filter_call (k, v)
    · rw [weight, if_pos hpass] at hw
      exact ⟨hpass, hw⟩
    · rw [weight, if_neg hpass] at hw
      omega
  · rw [drawCount_pick hrun (Seq.nodup_ipairs arr), if_pos (Seq.mem_ipairs.mpr hk)]
    rfl
  · subst hnone
    have hw : weight w none = fun e : Nat × V => w e.2 := rfl
    have htotal : total (weight w none) (Seq.ipairs arr) = total (fun e : Nat × V => w e.2) pairs := by
      rw [hw, Weighted.total_perm hp]
    have hrunP : ∀ random, randArrayP index pairs rate random = _ := fun random =>
      randArrayP_eq_pick random
        (fun e he => hrate e.2 (Seq.snd_mem_of_mem_ipairs (hp.mem_iff.mp he))) (htotal ▸ hpos)
        (htotal ▸ hmax)
    refine ⟨fun random h₁ h₂ => ?_, fun e => ?_⟩
    · rw [htotal] at h₁ h₂
      obtain ⟨⟨k, v⟩, he⟩ := Weighted.exists_pick (w := fun e : Nat × V => w e.2) (l := pairs)
        (show 0 < random (total (fun e : Nat × V => w e.2) pairs) by omega) (by omega)
      obtain ⟨hmem, hw, -⟩ := Weighted.of_pick he
      exact ⟨k, v, by rw [hrunP, he], Seq.mem_ipairs.mp (hp.mem_iff.mp hmem), hw⟩
    · rw [drawCount_pick hrun (Seq.nodup_ipairs arr), htotal,
        drawCount_pick hrunP (hp.nodup_iff.mpr (Seq.nodup_ipairs arr))]
      simp only [hp.mem_iff]
      rfl

/-- Three entries, one of which is filtered out. -/
theorem rand_array_rates_three :
    drawCount (randArray (fun v _ => some v) [2, 5, 3] none (some fun k _ => k != 2)) 5 (3, 3) =
      3 := by
  have h := (rand_array_rates (fun v _ => some v) [2, 5, 3] none (some fun k _ => k != 2)
    Int.toNat (by decide) 5 (by decide) (by decide) (by decide)).2.1 3 3 rfl
  exact h

/-- Two rates of 2^62: their sum wraps, and no draw is made. -/
theorem rates_wrap : ¬ ∀ (arr : List Int) (w : Int → Nat), (∀ v ∈ arr, v = w v) →
    ∀ n, n = total (weight w none) (Seq.ipairs arr) → 0 < n →
      ∀ random : Int → Int, 1 ≤ random n → random n ≤ n →
        ∃ k v, randArray (fun v _ => some v) arr none none random = .ok (some (k, v)) := by
  intro h
  obtain ⟨k, v, he⟩ := h [4611686018427387904, 4611686018427387904] Int.toNat (by decide)
    9223372036854775808 (by decide) (by decide) id (by decide) (by decide)
  have hraises : randArray (fun v _ => some v) [4611686018427387904, 4611686018427387904] none none
      id = .error .emptyInterval := by decide
  rw [hraises] at he
  cases he

end SkynetHotfix.Util
