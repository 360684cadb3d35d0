import Mathlib.Logic.Basic

/-!
# Binary search

The search in positions that `cmp` orders: below what is looked for first, above it last. It finds a
position of it, or where it would have to be (`search_found`, `search_missing`).
-/

namespace BinarySearch

variable {cmp : Nat → Ordering} {n first stop count i : Nat}

/-- From `first` to before `stop`, in `n` turns: a position that is equal, or the first above. -/
def search (cmp : Nat → Ordering) : (n first stop : Nat) → Nat ⊕ Nat
  | 0, first, _ => .inr first
  | n + 1, first, stop =>
    if first < stop then
      let mid := (first + (stop - 1)) / 2
      match cmp mid with
      | .eq => .inl mid
      | .lt => search cmp n (mid + 1) stop
      | .gt => search cmp n first mid
    else .inr first

/-- What is below comes first, and what is above last. -/
structure Ordered (cmp : Nat → Ordering) (count : Nat) : Prop where
  below : ∀ i j, i < j → j < count → cmp j = .lt → cmp i = .lt
  above : ∀ i j, i < j → j < count → cmp i = .gt → cmp j = .gt

theorem search_found (hstop : stop ≤ count) (h : search cmp n first stop = .inl i) :
    i < count ∧ cmp i = .eq := by
  induction n generalizing first stop with
  | zero => cases h
  | succ n ih =>
    rw [search] at h
    split at h
    · have hmid : (first + (stop - 1)) / 2 < stop := by omega
      dsimp only at h
      split at h
      · next heq =>
        obtain rfl := Sum.inl.inj h
        exact ⟨by omega, heq⟩
      · exact ih hstop h
      · exact ih (by omega) h
    · cases h

/-- The position between what is below and what is above. -/
theorem search_missing (ho : Ordered cmp count) (hn : stop ≤ n + first) (hfirst : first ≤ stop)
    (hstop : stop ≤ count) (hbelow : ∀ i < first, cmp i = .lt)
    (habove : ∀ i, stop ≤ i → i < count → cmp i = .gt) (h : search cmp n first stop = .inr i) :
    i ≤ count ∧ (∀ j < i, cmp j = .lt) ∧ ∀ j, i ≤ j → j < count → cmp j = .gt := by
  induction n generalizing first stop with
  | zero =>
    obtain rfl := Sum.inr.inj h
    exact ⟨by omega, hbelow, fun j hj => habove j (by omega)⟩
  | succ n ih =>
    rw [search] at h
    split at h
    · have hmid : (first + (stop - 1)) / 2 < stop := by omega
      dsimp only at h
      generalize hm : (first + (stop - 1)) / 2 = mid at h hmid
      split at h
      · cases h
      · next hlt =>
        refine ih (by omega) (by omega) hstop (fun j hj => ?_) habove h
        rcases Nat.lt_succ_iff_lt_or_eq.mp hj with hj | rfl
        · exact ho.below j mid hj (by omega) hlt
        · exact hlt
      · next hgt =>
        refine ih (by omega) (by omega) (by omega) hbelow (fun j hj hc => ?_) h
        rcases Nat.lt_or_eq_of_le hj with hj | rfl
        · exact ho.above mid j hj hc hgt
        · exact hgt
    · obtain rfl := Sum.inr.inj h
      exact ⟨by omega, hbelow, fun j hj => habove j (by omega)⟩

end BinarySearch
