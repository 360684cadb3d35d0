import SkynetHotfix.Lib.Fuel
import SkynetHotfix.Lua.Seq
import Mathlib.Data.List.AList

/-!
# Sorting a table

`sort_table` of `common/base/util.lua`, whose `quickSort` moves a hole between
two scanning indices: `Hole` is what its loops keep of the array. A call
`sort(l, r)` returns, permutes what is between `l` and `r` and leaves it
ascending (`Sorts`), whatever the comparison is up to the last (`quickSort_sorts`).
-/

namespace SkynetHotfix.Util

open Lua

variable {κ ν : Type} {lt : ν → ν → Bool}

/-- An entry of `arr`. -/
structure Entry (κ ν : Type) where
  k : κ
  v : ν
deriving DecidableEq

/-- An index of the array that a call `sort(l, r)` looks at. -/
structure Access where
  l : Nat
  r : Nat
  index : Nat
deriving DecidableEq

/-- The array, and what has been looked at. -/
structure Sorting (κ ν : Type) where
  array : List (Entry κ ν)
  accesses : List Access

/-- The same with the variables of the loops. -/
structure Scan (κ ν : Type) extends Sorting κ ν where
  i : Nat
  j : Nat

abbrev Result := Fuel.Result Unit

/-- `array[index]`, whose fields are read or written: raises if it is not there. -/
def look (l r index : Nat) (s : Scan κ ν) : Result (Entry κ ν × Scan κ ν) :=
  match Seq.get s.array index with
  | none => .error (some ())
  | some e => .ok (e, { s with accesses := s.accesses ++ [⟨l, r, index⟩] })

/-- `while(i < j and v < array[j].v) do j=j-1 end` -/
def scanRight (lt : ν → ν → Bool) (l r fuel : Nat) (v : ν) (s : Scan κ ν) : Result (Scan κ ν) :=
  Fuel.run (fun rec (_ : Unit) s =>
    if s.i < s.j then do
      let (e, s) ← look l r s.j s
      if lt v e.v then rec () { s with j := s.j - 1 } else .ok s
    else .ok s) fuel () s

/-- `while(i < j and v > array[i].v) do i=i+1 end` -/
def scanLeft (lt : ν → ν → Bool) (l r fuel : Nat) (v : ν) (s : Scan κ ν) : Result (Scan κ ν) :=
  Fuel.run (fun rec (_ : Unit) s =>
    if s.i < s.j then do
      let (e, s) ← look l r s.i s
      if lt e.v v then rec () { s with i := s.i + 1 } else .ok s
    else .ok s) fuel () s

/-- `array[dst].v = array[src].v` and the same for `k`. -/
def move (l r dst src : Nat) (s : Scan κ ν) : Result (Scan κ ν) := do
  let (e, s) ← look l r src s
  let (_, s) ← look l r dst s
  .ok { s with array := Seq.set s.array dst e }

/-- `if(i < j)` after the loop from the right. -/
def fillLeft (l r : Nat) (s : Scan κ ν) : Result (Scan κ ν) :=
  if s.i < s.j then do
    let s ← move l r s.i s.j s
    .ok { s with i := s.i + 1 }
  else .ok s

/-- `if(i < j)` after the loop from the left. -/
def fillRight (l r : Nat) (s : Scan κ ν) : Result (Scan κ ν) :=
  if s.i < s.j then do
    let s ← move l r s.j s.i s
    .ok { s with j := s.j - 1 }
  else .ok s

/-- The body of the outer loop. -/
def turn (lt : ν → ν → Bool) (l r fuel : Nat) (v : ν) (s : Scan κ ν) : Result (Scan κ ν) := do
  let s ← scanRight lt l r fuel v s
  let s ← fillLeft l r s
  let s ← scanLeft lt l r fuel v s
  fillRight l r s

/-- The outer loop. -/
def partition (lt : ν → ν → Bool) (l r fuel : Nat) (v : ν) (s : Scan κ ν) : Result (Scan κ ν) :=
  Fuel.run (fun rec (_ : Unit) s =>
    if s.i < s.j then do
      let s ← turn lt l r fuel v s
      rec () s
    else .ok s) fuel () s

/-- `sort(l,r)` -/
def sort (lt : ν → ν → Bool) (fuel : Nat) : Nat × Nat → Sorting κ ν → Result (Sorting κ ν) :=
  Fuel.run (fun rec lr s =>
    if lr.1 ≥ lr.2 then .ok s
    else do
      let (e, s) ← look lr.1 lr.2 lr.1 { s with i := lr.1, j := lr.2 }
      let s ← partition lt lr.1 lr.2 fuel e.v s
      let (_, s) ← look lr.1 lr.2 s.i s
      let i := s.i
      let s ← rec (lr.1, i - 1) { array := Seq.set s.array i e, accesses := s.accesses }
      rec (i + 1, lr.2) s) fuel

/-- `quickSort`, with loops and calls of at most `fuel` turns and depth. -/
def quickSort (lt : ν → ν → Bool) (fuel : Nat) (array : List (Entry κ ν)) : Result (Sorting κ ν) :=
  sort lt fuel (1, array.length) { array := array, accesses := [] }

/-- `sort_table`; `pairs` is the order in which `pairs` meets the entries of the table. -/
def sortTable [DecidableEq κ] (lt : ν → ν → Bool) (fuel : Nat) (pairs : List (Entry κ ν))
    (small_first : Bool) : Result (AList fun _ : κ => ν) := do
  if pairs.length = 0 then .ok ∅
  else
    let s ← quickSort lt fuel pairs
    let arr_res := if small_first then s.array else s.array.reverse
    .ok (arr_res.foldl (fun tb_res e => tb_res.insert e.k e.v) ∅)

/-! ## Arrays that are permuted between `l` and `r` -/

/-- The array is `a₀` permuted, with other items only between `l` and `r`, and these from there. -/
structure Permuted (l r : Nat) (a₀ a : List (Entry κ ν)) : Prop where
  perm : a.Perm a₀
  outside : ∀ x, x < l ∨ r < x → Seq.get a x = Seq.get a₀ x
  within : ∀ x, l ≤ x → x ≤ r → ∃ y, l ≤ y ∧ y ≤ r ∧ Seq.get a x = Seq.get a₀ y

namespace Permuted

variable {l r l' r' : Nat} {a₀ a a' : List (Entry κ ν)}

theorem refl (l r : Nat) (a : List (Entry κ ν)) : Permuted l r a a :=
  ⟨.refl _, fun _ _ => rfl, fun x hl hr => ⟨x, hl, hr, rfl⟩⟩

theorem length (h : Permuted l r a₀ a) : a.length = a₀.length := h.perm.length_eq

/-- A permutation of a part, after another. -/
theorem trans (h : Permuted l r a₀ a) (h' : Permuted l' r' a a') (hl : l ≤ l') (hr : r' ≤ r) :
    Permuted l r a₀ a' where
  perm := h'.perm.trans h.perm
  outside x hx := by
    rw [h'.outside x (by omega), h.outside x hx]
  within x hx hx' := by
    by_cases hin : l' ≤ x ∧ x ≤ r'
    · obtain ⟨y, hy, hy', e⟩ := h'.within x hin.1 hin.2
      obtain ⟨z, hz, hz', e'⟩ := h.within y (by omega) (by omega)
      exact ⟨z, hz, hz', e.trans e'⟩
    · rw [h'.outside x (by omega)]
      exact h.within x hx hx'

/-- The hole at `i` is filled with the item at `j`, where it is then. -/
theorem move {i j : Nat} {e y : Entry κ ν} (h : Permuted l r a₀ (Seq.set a i e)) (hl : 1 ≤ l)
    (hr : r ≤ a.length) (hi : l ≤ i ∧ i ≤ r) (hj : l ≤ j ∧ j ≤ r) (hne : i ≠ j)
    (hy : Seq.get a j = some y) : Permuted l r a₀ (Seq.set (Seq.set a i y) j e) := by
  have hget : ∀ x, Seq.get (Seq.set (Seq.set a i y) j e) x =
      if j = x then some e else if i = x then some y else Seq.get a x := by
    intro x
    rw [Seq.get_set (by omega) (by rw [Seq.length_set]; omega), Seq.get_set (by omega) (by omega)]
  have hget' : ∀ x, Seq.get (Seq.set a i e) x = if i = x then some e else Seq.get a x :=
    fun x => Seq.get_set (by omega) (by omega) x
  refine h.trans ⟨Seq.set_move_perm (by omega) (by omega) hy hne, fun x hx => ?_,
    fun x hx hx' => ?_⟩ (Nat.le_refl l) (Nat.le_refl r)
  · rw [hget, hget', if_neg (by omega), if_neg (by omega), if_neg (by omega)]
  · rw [hget]
    split
    · exact ⟨i, hi.1, hi.2, by rw [hget', if_pos rfl]⟩
    split
    · exact ⟨j, hj.1, hj.2, by rw [hget', if_neg hne, hy]⟩
    · rename_i hjx hix
      exact ⟨x, hx, hx', by rw [hget', if_neg hix]⟩

end Permuted

/-! ## The loops -/

/-- The calls have looked at nothing but what is between their `l` and `r`. -/
def InRange (accesses : List Access) : Prop := ∀ a ∈ accesses, a.l ≤ a.index ∧ a.index ≤ a.r

/-- The array of a call `sort(l, r)` that has taken out `e`, which leaves a hole at `h`. -/
structure Hole (lt : ν → ν → Bool) (l r : Nat) (a₀ : List (Entry κ ν)) (e : Entry κ ν) (h : Nat)
    (s : Scan κ ν) : Prop where
  permuted : Permuted l r a₀ (Seq.set s.array h e)
  lo : l ≤ s.i
  mid : s.i ≤ s.j
  hi : s.j ≤ r
  left : ∀ x y, l ≤ x → x < s.i → Seq.get s.array x = some y →
    lt y.v e.v = true ∨ lt e.v y.v = false
  right : ∀ x y, s.j < x → x ≤ r → Seq.get s.array x = some y →
    lt e.v y.v = true ∨ lt y.v e.v = false
  inRange : InRange s.accesses

/-- `l` and `r` are bounds of the array. -/
structure Bounds (l r n : Nat) : Prop where
  lo : 1 ≤ l
  hi : r ≤ n

section Loops

variable {l r fuel h x : Nat} {a₀ : List (Entry κ ν)} {e : Entry κ ν} {s : Scan κ ν}

theorem look_ok (hb : Bounds l r s.array.length) (hl : l ≤ x) (hr : x ≤ r)
    (hs : InRange s.accesses) :
    ∃ y accesses, Seq.get s.array x = some y ∧
      look l r x s = .ok (y, { s with accesses }) ∧ InRange accesses := by
  have hlo := hb.lo
  have hhi := hb.hi
  obtain ⟨y, hy⟩ := Seq.exists_get (a := s.array) (i := x) (by omega) (by omega)
  refine ⟨y, s.accesses ++ [⟨l, r, x⟩], hy, by rw [look, hy], fun a ha => ?_⟩
  rcases List.mem_append.mp ha with ha | ha
  · exact hs a ha
  · cases List.mem_singleton.mp ha
    exact ⟨hl, hr⟩

namespace Hole

theorem length (H : Hole lt l r a₀ e h s) : s.array.length = a₀.length := by
  rw [← H.permuted.length, Seq.length_set]

theorem bounds (H : Hole lt l r a₀ e h s) (hb : Bounds l r a₀.length) :
    Bounds l r s.array.length :=
  ⟨hb.lo, H.length ▸ hb.hi⟩

theorem look (H : Hole lt l r a₀ e h s) (hb : Bounds l r a₀.length) (hl : l ≤ x)
    (hr : x ≤ r) : ∃ y accesses, Seq.get s.array x = some y ∧
      look l r x s = .ok (y, { s with accesses }) ∧
      Hole lt l r a₀ e h { s with accesses } := by
  obtain ⟨y, accesses, hy, hu, ha⟩ := look_ok (H.bounds hb) hl hr H.inRange
  exact ⟨y, accesses, hy, hu, H.permuted, H.lo, H.mid, H.hi, H.left, H.right, ha⟩

theorem scanRight (H : Hole lt l r a₀ e s.i s) (hb : Bounds l r a₀.length)
    (hf : s.j - s.i < fuel) : ∃ s', scanRight lt l r fuel e.v s = .ok s' ∧
      Hole lt l r a₀ e s'.i s' ∧ s'.j - s'.i ≤ s.j - s.i ∧
      (s'.i < s'.j → ∃ y, Seq.get s'.array s'.j = some y ∧ lt e.v y.v = false) := by
  refine Fuel.run_total (P := fun _ s => Hole lt l r a₀ e s.i s)
    (Q := fun _ s s' => Hole lt l r a₀ e s'.i s' ∧ s'.j - s'.i ≤ s.j - s.i ∧
      (s'.i < s'.j → ∃ y, Seq.get s'.array s'.j = some y ∧ lt e.v y.v = false))
    (fun _ s => s.j - s.i) (fun rec _ s H hrec => ?_) fuel () s H hf
  by_cases hij : s.i < s.j
  · have hlo := H.lo
    have hhi := H.hi
    obtain ⟨y, accesses, hy, hu, H'⟩ := H.look (x := s.j) hb (by omega) (by omega)
    simp only [if_pos hij, hu]
    by_cases hlt : lt e.v y.v = true
    · -- The index goes left.
      have H₁ : Hole lt l r a₀ e s.i { s with accesses, j := s.j - 1 } := by
        refine ⟨H'.permuted, H'.lo, Nat.le_sub_one_of_lt hij, Nat.le_trans (Nat.sub_le ..) hhi,
          H'.left, fun x z hx hx' hz => ?_, H'.inRange⟩
        by_cases e : x = s.j
        · subst e
          cases hy.symm.trans hz
          exact .inl hlt
        · dsimp only at hx
          exact H.right x z (by omega) hx' hz
      obtain ⟨s', hu', H', hle, hstop⟩ := hrec () { s with accesses, j := s.j - 1 } H₁ (by
        dsimp only
        omega)
      dsimp only at hle
      refine ⟨s', ?_, H', by omega, hstop⟩
      show (if lt e.v y.v = true then _ else _) = _
      rw [if_pos hlt, hu']
    · refine ⟨{ s with accesses }, ?_, H', Nat.le_refl _, fun _ => ⟨y, hy, by simpa using hlt⟩⟩
      show (if lt e.v y.v = true then _ else _) = _
      rw [if_neg hlt]
  · exact ⟨s, by simp only [if_neg hij], H, Nat.le_refl _, fun h => absurd h hij⟩

theorem scanLeft (H : Hole lt l r a₀ e s.j s) (hb : Bounds l r a₀.length)
    (hf : s.j - s.i < fuel) : ∃ s', scanLeft lt l r fuel e.v s = .ok s' ∧
      Hole lt l r a₀ e s'.j s' ∧ s'.j - s'.i ≤ s.j - s.i ∧
      (s'.i < s'.j → ∃ y, Seq.get s'.array s'.i = some y ∧ lt y.v e.v = false) := by
  refine Fuel.run_total (P := fun _ s => Hole lt l r a₀ e s.j s)
    (Q := fun _ s s' => Hole lt l r a₀ e s'.j s' ∧ s'.j - s'.i ≤ s.j - s.i ∧
      (s'.i < s'.j → ∃ y, Seq.get s'.array s'.i = some y ∧ lt y.v e.v = false))
    (fun _ s => s.j - s.i) (fun rec _ s H hrec => ?_) fuel () s H hf
  by_cases hij : s.i < s.j
  · have hlo := H.lo
    have hhi := H.hi
    obtain ⟨y, accesses, hy, hu, H'⟩ := H.look (x := s.i) hb (by omega) (by omega)
    simp only [if_pos hij, hu]
    by_cases hlt : lt y.v e.v = true
    · -- The index goes right.
      have H₁ : Hole lt l r a₀ e s.j { s with accesses, i := s.i + 1 } := by
        refine ⟨H'.permuted, Nat.le_succ_of_le hlo, hij, hhi, fun x z hx hx' hz => ?_,
          H'.right, H'.inRange⟩
        by_cases e : x = s.i
        · subst e
          cases hy.symm.trans hz
          exact .inl hlt
        · dsimp only at hx'
          exact H.left x z hx (by omega) hz
      obtain ⟨s', hu', H', hle, hstop⟩ := hrec () { s with accesses, i := s.i + 1 } H₁ (by
        dsimp only
        omega)
      dsimp only at hle
      refine ⟨s', ?_, H', by omega, hstop⟩
      show (if lt y.v e.v = true then _ else _) = _
      rw [if_pos hlt, hu']
    · refine ⟨{ s with accesses }, ?_, H', Nat.le_refl _, fun _ => ⟨y, hy, by simpa using hlt⟩⟩
      show (if lt y.v e.v = true then _ else _) = _
      rw [if_neg hlt]
  · exact ⟨s, by simp only [if_neg hij], H, Nat.le_refl _, fun h => absurd h hij⟩

/-- An item of the other side is moved into the hole, which is then where the item was. -/
theorem move {k : Nat} {y : Entry κ ν} (H : Hole lt l r a₀ e h s) (hb : Bounds l r a₀.length)
    (hh : l ≤ h ∧ h ≤ r) (hk : l ≤ k ∧ k ≤ r) (hne : h ≠ k)
    (hy : Seq.get s.array k = some y) : ∃ accesses,
      move l r h k s = .ok { s with array := Seq.set s.array h y, accesses } ∧
      Permuted l r a₀ (Seq.set (Seq.set s.array h y) k e) ∧ InRange accesses := by
  obtain ⟨y', acc₁, hy', hu₁, H₁⟩ := H.look hb hk.1 hk.2
  cases hy.symm.trans hy'
  obtain ⟨z, acc₂, -, hu₂, H₂⟩ := H₁.look hb hh.1 hh.2
  have hbs := H.bounds hb
  refine ⟨acc₂, ?_, H.permuted.move hbs.lo hbs.hi hh hk hne hy, H₂.inRange⟩
  simp only [Util.move, hu₁]
  show (Util.look l r h { s with accesses := acc₁ } >>= _) = _
  rw [hu₂]
  rfl

/-- What is not greater goes to the hole on the left. -/
theorem fillLeft (H : Hole lt l r a₀ e s.i s) (hb : Bounds l r a₀.length)
    (hstop : s.i < s.j → ∃ y, Seq.get s.array s.j = some y ∧ lt e.v y.v = false) :
    ∃ s', fillLeft l r s = .ok s' ∧ Hole lt l r a₀ e s'.j s' ∧ s'.j - s'.i ≤ s.j - s.i ∧
      (s.i < s.j → s'.j - s'.i < s.j - s.i) := by
  have hlo := H.lo
  have hhi := H.hi
  have hmid := H.mid
  have hbs := H.bounds hb
  by_cases hij : s.i < s.j
  · obtain ⟨y, hy, hlt⟩ := hstop hij
    obtain ⟨accesses, hu, hp, ha⟩ := H.move hb (k := s.j) ⟨hlo, by omega⟩ ⟨by omega, hhi⟩
      (by omega) hy
    refine ⟨{ s with array := Seq.set s.array s.i y, accesses, i := s.i + 1 }, ?_,
      ⟨hp, Nat.le_succ_of_le hlo, hij, hhi, fun x z hx hx' hz => ?_, fun x z hx hx' hz => ?_, ha⟩,
      ?_⟩
    · rw [Util.fillLeft, if_pos hij]
      exact Fuel.bind_eq_ok.mpr ⟨_, hu, rfl⟩
    · have := hbs.lo
      have := hbs.hi
      dsimp only at hz hx'
      rw [Seq.get_set (by omega) (by omega)] at hz
      split at hz
      · cases hz
        exact .inr hlt
      · exact H.left x z hx (by omega) hz
    · dsimp only at hz hx
      rw [Seq.get_set_of_ne (by omega)] at hz
      exact H.right x z hx hx' hz
    · dsimp only
      omega
  · have e : s.j = s.i := by omega
    exact ⟨s, by rw [Util.fillLeft, if_neg hij], e ▸ H, Nat.le_refl _, fun h => absurd h hij⟩

/-- What is not less goes to the hole on the right. -/
theorem fillRight (H : Hole lt l r a₀ e s.j s) (hb : Bounds l r a₀.length)
    (hstop : s.i < s.j → ∃ y, Seq.get s.array s.i = some y ∧ lt y.v e.v = false) :
    ∃ s', fillRight l r s = .ok s' ∧ Hole lt l r a₀ e s'.i s' ∧ s'.j - s'.i ≤ s.j - s.i := by
  have hlo := H.lo
  have hhi := H.hi
  have hmid := H.mid
  have hbs := H.bounds hb
  by_cases hij : s.i < s.j
  · obtain ⟨y, hy, hlt⟩ := hstop hij
    obtain ⟨accesses, hu, hp, ha⟩ := H.move hb (k := s.i) ⟨by omega, hhi⟩ ⟨hlo, by omega⟩
      (by omega) hy
    refine ⟨{ s with array := Seq.set s.array s.j y, accesses, j := s.j - 1 }, ?_,
      ⟨hp, hlo, Nat.le_sub_one_of_lt hij, Nat.le_trans (Nat.sub_le ..) hhi,
        fun x z hx hx' hz => ?_, fun x z hx hx' hz => ?_, ha⟩, ?_⟩
    · rw [Util.fillRight, if_pos hij]
      exact Fuel.bind_eq_ok.mpr ⟨_, hu, rfl⟩
    · dsimp only at hz hx'
      rw [Seq.get_set_of_ne (by omega)] at hz
      exact H.left x z hx hx' hz
    · have := hbs.lo
      have := hbs.hi
      dsimp only at hz hx
      rw [Seq.get_set (by omega) (by omega)] at hz
      split at hz
      · cases hz
        exact .inr hlt
      · exact H.right x z (by omega) hx' hz
    · dsimp only
      omega
  · have e : s.j = s.i := by omega
    exact ⟨s, by rw [Util.fillRight, if_neg hij], e ▸ H, Nat.le_refl _⟩

theorem turn (H : Hole lt l r a₀ e s.i s) (hb : Bounds l r a₀.length) (hij : s.i < s.j)
    (hf : s.j - s.i < fuel) : ∃ s', turn lt l r fuel e.v s = .ok s' ∧
      Hole lt l r a₀ e s'.i s' ∧ s'.j - s'.i < s.j - s.i := by
  obtain ⟨s₁, hu₁, H₁, hle₁, hstop₁⟩ := H.scanRight hb hf
  obtain ⟨s₂, hu₂, H₂, hle₂, hlt₂⟩ := H₁.fillLeft hb hstop₁
  obtain ⟨s₃, hu₃, H₃, hle₃, hstop₃⟩ := H₂.scanLeft hb (Nat.lt_of_le_of_lt (Nat.le_trans hle₂ hle₁) hf)
  obtain ⟨s₄, hu₄, H₄, hle₄⟩ := H₃.fillRight hb hstop₃
  refine ⟨s₄, ?_, H₄, by omega⟩
  exact Fuel.bind_eq_ok.mpr ⟨s₁, hu₁, Fuel.bind_eq_ok.mpr ⟨s₂, hu₂,
    Fuel.bind_eq_ok.mpr ⟨s₃, hu₃, hu₄⟩⟩⟩

theorem partition (H : Hole lt l r a₀ e s.i s) (hb : Bounds l r a₀.length)
    (hf : s.j - s.i < fuel) : ∃ s', partition lt l r fuel e.v s = .ok s' ∧
      Hole lt l r a₀ e s'.i s' ∧ s'.j = s'.i := by
  refine Fuel.run_total (P := fun _ s => Hole lt l r a₀ e s.i s ∧ s.j - s.i < fuel)
    (Q := fun _ _ s' => Hole lt l r a₀ e s'.i s' ∧ s'.j = s'.i) (fun _ s => s.j - s.i)
    (fun rec _ s H hrec => ?_) fuel () s ⟨H, hf⟩ hf
  obtain ⟨H, hf⟩ := H
  by_cases hij : s.i < s.j
  · obtain ⟨s₁, hu₁, H₁, hlt⟩ := H.turn hb hij hf
    obtain ⟨s', hu, H'⟩ := hrec () s₁ ⟨H₁, by omega⟩ hlt
    exact ⟨s', by rw [if_pos hij]; exact Fuel.bind_eq_ok.mpr ⟨s₁, hu₁, hu⟩, H'⟩
  · have hmid := H.mid
    exact ⟨s, by rw [if_neg hij], H, by omega⟩

end Hole

end Loops

/-! ## The recursion -/

/-- The values can be put in order: on them `lt` is the strict part of a total preorder. -/
structure Ordered (lt : ν → ν → Bool) (a : List (Entry κ ν)) : Prop where
  asymm : ∀ x ∈ a, ∀ y ∈ a, lt x.v y.v = true → lt y.v x.v = false
  trans : ∀ x ∈ a, ∀ y ∈ a, ∀ z ∈ a, lt y.v x.v = false → lt z.v y.v = false →
    lt z.v x.v = false

/-- No value between `l` and `r` is less than one before it. -/
def Ascending (lt : ν → ν → Bool) (l r : Nat) (a : List (Entry κ ν)) : Prop :=
  ∀ x y ex ey, l ≤ x → x < y → y ≤ r → Seq.get a x = some ex → Seq.get a y = some ey →
    lt ey.v ex.v = false

/-- What a call `sort(l, r)` does. -/
structure Sorts (lt : ν → ν → Bool) (l r : Nat) (s s' : Sorting κ ν) : Prop where
  permuted : Permuted l r s.array s'.array
  ascending : Ordered lt s.array → Ascending lt l r s'.array
  inRange : InRange s'.accesses

theorem Ordered.perm {a a' : List (Entry κ ν)} (ho : Ordered lt a) (hp : a'.Perm a) :
    Ordered lt a' where
  asymm x hx y hy := ho.asymm x (hp.mem_iff.mp hx) y (hp.mem_iff.mp hy)
  trans x hx y hy z hz :=
    ho.trans x (hp.mem_iff.mp hx) y (hp.mem_iff.mp hy) z (hp.mem_iff.mp hz)

/-- Both sides of an item that is in its place are sorted. -/
theorem Ascending.join {l p r : Nat} {e : Entry κ ν} {a₁ a₂ a₃ : List (Entry κ ν)}
    (ho : Ordered lt a₁) (he : Seq.get a₁ p = some e)
    (hleft : ∀ x y, l ≤ x → x < p → Seq.get a₁ x = some y → lt e.v y.v = false)
    (hright : ∀ x y, p < x → x ≤ r → Seq.get a₁ x = some y → lt y.v e.v = false)
    (h₂ : Permuted l (p - 1) a₁ a₂) (hs₂ : Ascending lt l (p - 1) a₂)
    (h₃ : Permuted (p + 1) r a₂ a₃) (hs₃ : Ascending lt (p + 1) r a₃) : Ascending lt l r a₃ := by
  have hp := (Seq.bounds_of_get he).1
  have hp₃ : Seq.get a₃ p = some e := by
    rw [h₃.outside p (by omega), h₂.outside p (by omega), he]
  have hleft₃ : ∀ x y, l ≤ x → x < p → Seq.get a₃ x = some y → lt e.v y.v = false := by
    intro x y hx hxp hy
    rw [h₃.outside x (by omega)] at hy
    obtain ⟨z, hz, hz', e'⟩ := h₂.within x hx (by omega)
    exact hleft z y hz (by omega) (e' ▸ hy)
  have hright₃ : ∀ x y, p < x → x ≤ r → Seq.get a₃ x = some y → lt y.v e.v = false := by
    intro x y hx hxr hy
    obtain ⟨z, hz, hz', e'⟩ := h₃.within x (by omega) hxr
    rw [e', h₂.outside z (by omega)] at hy
    exact hright z y (by omega) hz' hy
  have ho₃ := ho.perm (h₃.perm.trans h₂.perm)
  intro x y ex ey hx hxy hy hex hey
  rcases Nat.lt_trichotomy x p with hxp | rfl | hxp
  · rcases Nat.lt_trichotomy y p with hyp | rfl | hyp
    · rw [h₃.outside x (by omega)] at hex
      rw [h₃.outside y (by omega)] at hey
      exact hs₂ x y ex ey hx hxy (by omega) hex hey
    · cases hp₃.symm.trans hey
      exact hleft₃ x ex hx hxp hex
    · exact ho₃.trans ex (Seq.mem_of_get hex) e (Seq.mem_of_get hp₃) ey (Seq.mem_of_get hey)
        (hleft₃ x ex hx hxp hex) (hright₃ y ey hyp hy hey)
  · cases hp₃.symm.trans hex
    exact hright₃ y ey hxy hy hey
  · exact hs₃ x y ex ey hxp hxy hy hex hey

/-- The item that is put back has what is not greater before it and what is not less behind it. -/
theorem Hole.pivot {l r : Nat} {a₀ : List (Entry κ ν)} {e : Entry κ ν} {s : Scan κ ν}
    (H : Hole lt l r a₀ e s.i s) (hb : Bounds l r a₀.length) (hij : s.j = s.i)
    (ho : Ordered lt a₀) (he : e ∈ a₀) :
    (∀ x y, l ≤ x → x < s.i → Seq.get (Seq.set s.array s.i e) x = some y → lt e.v y.v = false) ∧
      ∀ x y, s.i < x → x ≤ r → Seq.get (Seq.set s.array s.i e) x = some y →
        lt y.v e.v = false := by
  have hl := hb.lo
  have hr := hb.hi
  have hlo := H.lo
  have hhi := H.hi
  have hlen := H.length
  have hget : ∀ x, s.i ≠ x → Seq.get (Seq.set s.array s.i e) x = Seq.get s.array x := by
    intro x hne
    rw [Seq.get_set (by omega) (by omega), if_neg hne]
  have hin : ∀ {x y}, Seq.get (Seq.set s.array s.i e) x = some y → y ∈ a₀ := fun hy =>
    H.permuted.perm.mem_iff.mp (Seq.mem_of_get hy)
  constructor
  · intro x y hx hxi hy
    have hmem := hin hy
    rw [hget x (by omega)] at hy
    exact (H.left x y hx hxi hy).elim (ho.asymm y hmem e he) id
  · intro x y hxi hxr hy
    have hmem := hin hy
    rw [hget x (by omega)] at hy
    exact (H.right x y (by omega) hxr hy).elim (ho.asymm e he y hmem) id

theorem sort_sorts (lt : ν → ν → Bool) (fuel : Nat) : ∀ lr (s : Sorting κ ν),
    Bounds lr.1 lr.2 s.array.length → lr.2 - lr.1 < fuel → InRange s.accesses →
    lr.2 + 1 - lr.1 < fuel → ∃ s', sort lt fuel lr s = .ok s' ∧ Sorts lt lr.1 lr.2 s s' := by
  intro lr s hb hlt ha hf
  refine Fuel.run_total (P := fun lr (s : Sorting κ ν) => Bounds lr.1 lr.2 s.array.length ∧
      lr.2 - lr.1 < fuel ∧ InRange s.accesses) (Q := fun lr s s' => Sorts lt lr.1 lr.2 s s')
    (fun lr _ => lr.2 + 1 - lr.1) (fun rec lr s H hrec => ?_) fuel lr s ⟨hb, hlt, ha⟩ hf
  obtain ⟨l, r⟩ := lr
  obtain ⟨hb, hlt, ha⟩ := H
  dsimp only at hb hlt hrec ⊢
  have hl := hb.lo
  have hr := hb.hi
  by_cases hlr : l ≥ r
  · refine ⟨s, by rw [if_pos hlr], .refl .., fun _ x y _ _ hx hxy hy => ?_, ha⟩
    omega
  obtain ⟨e, acc₁, he, hu₁, ha₁⟩ := look_ok (s := { s with i := l, j := r }) hb (Nat.le_refl l)
    (by omega) ha
  -- The item at `l` is taken out.
  have H₁ : Hole lt l r s.array e l { s with accesses := acc₁, i := l, j := r } := by
    refine ⟨?_, Nat.le_refl l, by dsimp only; omega, Nat.le_refl r, fun x y hx hx' => ?_,
      fun x y hx hx' => ?_, ha₁⟩
    · rw [Seq.set_get he]
      exact .refl ..
    · dsimp only at hx'
      omega
    · dsimp only at hx
      omega
  obtain ⟨s₂, hu₂, H₂, hij⟩ :=
    Hole.partition (s := { s with accesses := acc₁, i := l, j := r }) H₁ hb hlt
  have hlo₂ := H₂.lo
  have hhi₂ := H₂.hi
  have hlen₂ := H₂.length
  obtain ⟨y, acc₃, -, hu₃, H₃⟩ := H₂.look (x := s₂.i) hb hlo₂ (by omega)
  have hlen : (Seq.set s₂.array s₂.i e).length = s.array.length := H₂.permuted.length
  obtain ⟨s₄, hu₄, h₄⟩ := hrec (l, s₂.i - 1) ⟨Seq.set s₂.array s₂.i e, acc₃⟩
    ⟨⟨hl, by dsimp only; omega⟩, by dsimp only; omega, H₃.inRange⟩ (by dsimp only; omega)
  have hlen₄ : s₄.array.length = s.array.length := h₄.permuted.length.trans hlen
  obtain ⟨s₅, hu₅, h₅⟩ := hrec (s₂.i + 1, r) s₄
    ⟨⟨by dsimp only; omega, by dsimp only; omega⟩, by dsimp only; omega, h₄.inRange⟩
    (by dsimp only; omega)
  refine ⟨s₅, ?_, ?_, fun ho => ?_, h₅.inRange⟩
  · rw [if_neg hlr]
    exact Fuel.bind_eq_ok.mpr ⟨_, hu₁, Fuel.bind_eq_ok.mpr ⟨s₂, hu₂,
      Fuel.bind_eq_ok.mpr ⟨_, hu₃, Fuel.bind_eq_ok.mpr ⟨s₄, hu₄, hu₅⟩⟩⟩⟩
  · exact (H₂.permuted.trans h₄.permuted (Nat.le_refl l) (by dsimp only; omega)).trans
      h₅.permuted (by dsimp only; omega) (Nat.le_refl r)
  · have ho₁ := ho.perm H₂.permuted.perm
    obtain ⟨hleft, hright⟩ := H₂.pivot hb hij ho (Seq.mem_of_get he)
    have hpivot : Seq.get (Seq.set s₂.array s₂.i e) s₂.i = some e := by
      rw [Seq.get_set (by omega) (by omega), if_pos rfl]
    exact Ascending.join ho₁ hpivot hleft hright h₄.permuted (h₄.ascending ho₁) h₅.permuted
      (h₅.ascending (ho₁.perm h₄.permuted.perm))

/-- `quickSort` returns, with a permutation of the entries that is ascending if the values can be
put in order, and every call looks only at what is between its `l` and `r`. -/
theorem quickSort_sorts (lt : ν → ν → Bool) (array : List (Entry κ ν)) :
    ∃ F, ∀ fuel ≥ F, ∃ s, quickSort lt fuel array = .ok s ∧ s.array.Perm array ∧
      (Ordered lt array → s.array.Pairwise fun x y => lt y.v x.v = false) ∧
      ∀ a ∈ s.accesses, a.l ≤ a.index ∧ a.index ≤ a.r := by
  refine ⟨array.length + 2, fun fuel hf => ?_⟩
  obtain ⟨s, hu, hs⟩ := sort_sorts lt fuel (1, array.length)
    { array := array, accesses := [] } ⟨Nat.le_refl 1, Nat.le_refl _⟩ (by dsimp only; omega)
    (by simp [InRange]) (by dsimp only; omega)
  refine ⟨s, hu, hs.permuted.perm, fun ho => ?_, hs.inRange⟩
  have hlen := hs.permuted.length
  refine List.pairwise_iff_getElem.mpr fun i j hi hj hij => ?_
  exact hs.ascending ho (i + 1) (j + 1) _ _ (by omega) (by omega) (by dsimp only at hlen ⊢; omega)
    (List.getElem?_eq_getElem hi) (List.getElem?_eq_getElem hj)

/-- Values with a total order, such as the numbers other than NaN, can be put in order. -/
theorem ordered_of_total [Preorder ν] [@Std.Total ν (· ≤ ·)] [DecidableLT ν]
    (a : List (Entry κ ν)) : Ordered (fun x y => decide (x < y)) a where
  asymm x _ y _ h := decide_eq_false (lt_asymm (of_decide_eq_true h))
  trans x _ y _ z _ hxy hyz := by
    have hle : ∀ {u v : ν}, ¬ u < v → v ≤ u := fun {u v} h =>
      (Std.Total.total v u).elim id fun huv =>
        by_contra fun hvu => h (lt_of_le_not_ge huv hvu)
    have h := le_trans (hle (of_decide_eq_false hxy)) (hle (of_decide_eq_false hyz))
    exact decide_eq_false h.not_gt

/-! ## The table -/

/-- Entries with keys of their own make a table that has each of them. -/
theorem lookup_insert_all [DecidableEq κ] {l : List (Entry κ ν)} (hk : (l.map Entry.k).Nodup)
    (tb : AList fun _ : κ => ν) (k : κ) (v : ν) :
    v ∈ (l.foldl (fun tb e => tb.insert e.k e.v) tb).lookup k ↔
      ⟨k, v⟩ ∈ l ∨ (∀ e ∈ l, e.k ≠ k) ∧ v ∈ tb.lookup k := by
  induction l generalizing tb with
  | nil => simp
  | cons e l ih =>
    obtain ⟨hne, hk⟩ := List.nodup_cons.mp hk
    have hne : ∀ e' ∈ l, e'.k ≠ e.k := fun e' he' h => hne (h ▸ List.mem_map_of_mem he')
    rw [List.foldl_cons, ih hk]
    by_cases h : k = e.k
    · subst h
      have hout : ⟨e.k, v⟩ ∉ l := fun hm => hne _ hm rfl
      rw [AList.lookup_insert, Option.mem_some_iff, List.mem_cons]
      constructor
      · rintro (hm | ⟨-, rfl⟩)
        · exact absurd hm hout
        · exact .inl (.inl rfl)
      · rintro ((he | hm) | ⟨hall, -⟩)
        · exact .inr ⟨hne, by rw [← he]⟩
        · exact absurd hm hout
        · exact absurd rfl (hall e List.mem_cons_self)
    · have he : (⟨k, v⟩ : Entry κ ν) ≠ e := fun he => h (he ▸ rfl)
      rw [AList.lookup_insert_ne h]
      simp [he, Ne.symm h]

/-- `sort_table` gives the table itself back, whatever the order: what it sorts it puts into a table
again. -/
theorem sortTable_eq [DecidableEq κ] (lt : ν → ν → Bool) (pairs : List (Entry κ ν))
    (small_first : Bool) (hk : (pairs.map Entry.k).Nodup) :
    ∃ F, ∀ fuel ≥ F, ∃ tb, sortTable lt fuel pairs small_first = .ok tb ∧
      ∀ k v, v ∈ tb.lookup k ↔ ⟨k, v⟩ ∈ pairs := by
  by_cases hn : pairs.length = 0
  · rw [List.length_eq_zero_iff] at hn
    subst hn
    exact ⟨0, fun fuel _ => ⟨∅, rfl, by simp⟩⟩
  refine ⟨pairs.length + 2, fun fuel hf => ?_⟩
  obtain ⟨s, hu, hs⟩ := sort_sorts lt fuel (1, pairs.length)
    { array := pairs, accesses := [] } ⟨Nat.le_refl 1, Nat.le_refl _⟩ (by dsimp only; omega)
    (by simp [InRange]) (by dsimp only; omega)
  obtain ⟨arr_res, he, hp⟩ : ∃ arr_res,
      (if small_first then s.array else s.array.reverse) = arr_res ∧ arr_res.Perm pairs := by
    refine ⟨_, rfl, ?_⟩
    split
    · exact hs.permuted.perm
    · exact (List.reverse_perm _).trans hs.permuted.perm
  refine ⟨arr_res.foldl (fun tb_res e => tb_res.insert e.k e.v) ∅, ?_, fun k v => ?_⟩
  · rw [sortTable, if_neg hn]
    exact Fuel.bind_eq_ok.mpr ⟨s, hu, by rw [← he]⟩
  · rw [lookup_insert_all ((hp.map Entry.k).nodup_iff.mpr hk), hp.mem_iff]
    simp

end SkynetHotfix.Util
