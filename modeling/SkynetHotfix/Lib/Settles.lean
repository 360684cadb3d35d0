import SkynetHotfix.Lib.Fuel

/-!
# Runs that settle

A procedure that is given fuel has a result for each amount of it. It settles
where the result is the same from some fuel on: it returns, or raises for a
reason. `Settles.bind` and `Settles.foldlM_met` put a procedure together from its
steps, and `Settles.succ` is for the call that spends one unit.
-/

namespace Fuel

universe u

variable {E α : Type*} {S S' : Type u} {P P' : S → Prop} {Q : S' → Prop} {R : Prop}
  {f : Nat → Result E S} {n n' : Nat}

/-- From the fuel `n` on there is one result: a return with `P`, or an error, and then `R`. -/
def Settles (P : S → Prop) (R : Prop) (f : Nat → Result E S) (n : Nat) : Prop :=
  ∃ r, (∀ m ≥ n, f m = r) ∧ ((∃ s, r = .ok s ∧ P s) ∨ ((∃ e, r = .error (some e)) ∧ R))

namespace Settles

theorem ok {s : S} (hs : P s) : Settles P R (fun _ => (.ok s : Result E S)) n :=
  ⟨.ok s, fun _ _ => rfl, .inl ⟨s, rfl, hs⟩⟩

theorem raise (e : E) (hR : R) : Settles P R (fun _ => (.error (some e) : Result E S)) n :=
  ⟨.error (some e), fun _ _ => rfl, .inr ⟨⟨e, rfl⟩, hR⟩⟩

theorem mono (h : Settles P R f n) (hn : n ≤ n') (hP : ∀ s, P s → P' s) : Settles P' R f n' := by
  obtain ⟨r, hr, hs⟩ := h
  refine ⟨r, fun m hm => hr m (Nat.le_trans hn hm), hs.imp_left ?_⟩
  rintro ⟨s, e, hs⟩
  exact ⟨s, e, hP s hs⟩

/-- A call spends one unit. -/
theorem succ (h : Settles P R (fun m => f (m + 1)) n) : Settles P R f (n + 1) := by
  obtain ⟨r, hr, hs⟩ := h
  refine ⟨r, fun m hm => ?_, hs⟩
  obtain ⟨m, rfl⟩ : ∃ m', m = m' + 1 := ⟨m - 1, by omega⟩
  exact hr m (by omega)

theorem bind {g : Nat → S → Result E S'} (h : Settles P R f n)
    (hg : ∀ s, P s → Settles Q R (fun m => g m s) n) :
    Settles Q R (fun m => f m >>= g m) n := by
  obtain ⟨r, hr, ⟨s, rfl, hs⟩ | ⟨⟨e, rfl⟩, hR⟩⟩ := h
  · obtain ⟨r', hr', hs'⟩ := hg s hs
    refine ⟨r', fun m hm => ?_, hs'⟩
    show f m >>= g m = r'
    rw [hr m hm, ok_bind]
    exact hr' m hm
  · refine ⟨.error (some e), fun m hm => ?_, .inr ⟨⟨e, rfl⟩, hR⟩⟩
    show f m >>= g m = _
    rw [hr m hm]
    rfl

/-- A loop, by what holds of the elements that are left. -/
theorem foldlM {g : Nat → S → α → Result E S} {P : List α → S → Prop}
    (hg : ∀ a l s, P (a :: l) s → Settles (P l) R (fun m => g m s a) n) {l : List α} {s : S}
    (hs : P l s) : Settles (P []) R (fun m => l.foldlM (g m) s) n := by
  induction l generalizing s with
  | nil => exact ok hs
  | cons a l ih =>
    simp only [List.foldlM_cons]
    exact (hg a l s hs).bind fun s' hs' => ih hs'

/-- A loop, by what holds of the elements that it has met. -/
theorem foldlM_met {g : Nat → S → α → Result E S} {P : List α → S → Prop} {l : List α}
    (hg : ∀ met a left s, l = met ++ a :: left → P met s →
      Settles (P (met ++ [a])) R (fun m => g m s a) n)
    {s : S} (hs : P [] s) : Settles (P l) R (fun m => l.foldlM (g m) s) n := by
  refine (foldlM (P := fun left s => ∃ met, l = met ++ left ∧ P met s) ?_ ⟨[], rfl, hs⟩).mono
    (Nat.le_refl _) ?_
  · rintro a left s ⟨met, hl, hp⟩
    refine (hg met a left s hl hp).mono (Nat.le_refl _) fun s' hp' => ⟨met ++ [a], ?_, hp'⟩
    rw [hl, List.append_assoc]
    rfl
  · rintro s' ⟨met, hl, hp⟩
    rw [List.append_nil] at hl
    exact hl ▸ hp

/-- Where there is no reason to raise, it returns. -/
theorem returns (h : Settles P R f n) (hR : ¬R) : ∃ s, (∀ m ≥ n, f m = .ok s) ∧ P s := by
  obtain ⟨r, hr, ⟨s, rfl, hs⟩ | ⟨-, h⟩⟩ := h
  · exact ⟨s, hr, hs⟩
  · exact absurd h hR

/-- What it returns, it returns with `P`. -/
theorem post (h : Settles P R f n) {m : Nat} (hm : n ≤ m) {s : S} (hs : f m = .ok s) : P s := by
  obtain ⟨r, hr, ⟨s', rfl, hs'⟩ | ⟨⟨e, rfl⟩, -⟩⟩ := h
  · rw [hr m hm] at hs
    cases hs
    exact hs'
  · rw [hr m hm] at hs
    cases hs

end Settles

end Fuel
