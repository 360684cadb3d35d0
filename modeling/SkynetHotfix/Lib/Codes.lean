import Mathlib.Data.List.Infix

/-!
# Readers of codes

A reader takes what it needs from the start of its input, or fails. It reads a code where it takes
just the code, whatever follows, and fails on all that is cut off within the code, for a reason in
`Cut` (`Reads`). One reader after the other reads one code after the other (`Reads.bind`,
`Reads.times`).
-/

namespace Codes

variable {β ε α γ : Type}

abbrev Reader (β ε : Type) := StateT (List β) (Except ε)

/-- `r` reads `code` as `a`. -/
structure Reads (Cut : ε → Prop) (r : Reader β ε α) (a : α) (code : List β) : Prop where
  whole : ∀ rest, r (code ++ rest) = .ok (a, rest)
  short : ∀ p, p <+: code → p ≠ code → ∃ e, Cut e ∧ r p = .error e

/-- Each reader its own code. -/
inductive All (Cut : ε → Prop) (r : Reader β ε α) : List α → List (List β) → Prop
  | nil : All Cut r [] []
  | cons {a : α} {as : List α} {c : List β} {cs : List (List β)} : Reads Cut r a c →
      All Cut r as cs → All Cut r (a :: as) (c :: cs)

/-- A reader `n` times. -/
def times (r : Reader β ε α) : Nat → Reader β ε (List α)
  | 0 => pure []
  | n + 1 => do
    let a ← r
    let as ← times r n
    pure (a :: as)

/-- What is cut off from two parts is cut off within the first, or is the first and something of the
second. -/
theorem prefix_append {p x y : List β} (h : p <+: x ++ y) :
    (p <+: x ∧ p ≠ x) ∨ ∃ q, p = x ++ q ∧ q <+: y := by
  rcases Nat.lt_or_ge p.length x.length with hlt | hge
  · refine .inl ⟨List.prefix_of_prefix_length_le h (List.prefix_append x y) (Nat.le_of_lt hlt), ?_⟩
    rintro rfl
    omega
  · obtain ⟨q, rfl⟩ := List.prefix_of_prefix_length_le (List.prefix_append x y) h hge
    exact .inr ⟨q, rfl, (List.prefix_append_right_inj x).mp h⟩

variable {Cut : ε → Prop} {r : Reader β ε α} {f : α → Reader β ε γ} {a : α} {b : γ}
  {x y : List β}

theorem bind_ok {s s' : List β} (h : r s = .ok (a, s')) : (r >>= f) s = f a s' := by
  show (r s >>= fun p => f p.1 p.2) = _
  rw [h]
  rfl

theorem bind_error {s : List β} {e : ε} (h : r s = .error e) : (r >>= f) s = .error e := by
  show (r s >>= fun p => f p.1 p.2) = _
  rw [h]
  rfl

namespace Reads

theorem pure (a : α) : Reads Cut (pure a : Reader β ε α) a [] where
  whole _ := rfl
  short _ hp hne := absurd (List.prefix_nil.mp hp) hne

theorem bind (h : Reads Cut r a x) (hf : Reads Cut (f a) b y) :
    Reads Cut (r >>= f) b (x ++ y) where
  whole rest := by
    rw [List.append_assoc, bind_ok (h.whole _)]
    exact hf.whole rest
  short p hp hne := by
    obtain ⟨hx, hpx⟩ | ⟨q, rfl, hq⟩ := prefix_append hp
    · obtain ⟨e, hcut, he⟩ := h.short p hx hpx
      exact ⟨e, hcut, bind_error he⟩
    · have hqy : q ≠ y := by
        rintro rfl
        exact hne rfl
      obtain ⟨e, hcut, he⟩ := hf.short q hq hqy
      exact ⟨e, hcut, (bind_ok (h.whole q)).trans he⟩

/-- A step that reads nothing itself. -/
theorem bind_pure {c : γ} (h : Reads Cut r a x) (hf : f a = Pure.pure c) :
    Reads Cut (r >>= f) c x := by
  have hbind := h.bind (f := f) (b := c) (y := []) (by rw [hf]; exact pure c)
  rwa [List.append_nil] at hbind

end Reads

theorem All.times {as : List α} {cs : List (List β)} (h : All Cut r as cs) :
    Reads Cut (times r as.length) as cs.flatten := by
  induction h with
  | nil => exact .pure []
  | cons ha _ ih => exact ha.bind (ih.bind_pure rfl)

/-- From `s` the reader reads something good and takes `k` at least, or fails for a reason in
`Fail`. -/
def Spends (k : Nat) (Good : α → Prop) (Fail : ε → Prop) (r : Reader β ε α) (s : List β) : Prop :=
  match r s with
  | .ok (a, s') => Good a ∧ s'.length + k ≤ s.length
  | .error e => Fail e

namespace Spends

variable {Good : α → Prop} {Good' : γ → Prop} {Fail : ε → Prop} {s : List β} {k j : Nat}

theorem of_ok {s' : List β} (h : r s = .ok (a, s')) (ha : Good a)
    (hk : s'.length + k ≤ s.length) : Spends k Good Fail r s := by
  rw [Spends, h]
  exact ⟨ha, hk⟩

theorem of_error {e : ε} (h : r s = .error e) (he : Fail e) : Spends k Good Fail r s := by
  rw [Spends, h]
  exact he

theorem pure (ha : Good a) : Spends 0 Good Fail (pure a : Reader β ε α) s :=
  of_ok rfl ha (Nat.le_refl _)

theorem bind (h : Spends k Good Fail r s)
    (hf : ∀ a s', Good a → s'.length + k ≤ s.length → Spends j Good' Fail (f a) s') :
    Spends (k + j) Good' Fail (r >>= f) s := by
  cases hr : r s with
  | error e =>
    rw [Spends, hr] at h
    exact of_error (bind_error hr) h
  | ok p =>
    obtain ⟨a, s'⟩ := p
    rw [Spends, hr] at h
    have hfa := hf a s' h.1 h.2
    rw [Spends, bind_ok hr]
    cases hs : f a s' with
    | error e =>
      rw [Spends, hs] at hfa
      exact hfa
    | ok p =>
      obtain ⟨b, s''⟩ := p
      rw [Spends, hs] at hfa
      refine ⟨hfa.1, ?_⟩
      have hle := h.2
      have hle' := hfa.2
      show s''.length + (k + j) ≤ s.length
      omega

/-- A step that reads nothing itself. -/
theorem bind_pure {f : α → γ} (h : Spends k Good Fail r s) (hf : ∀ a, Good a → Good' (f a)) :
    Spends k Good' Fail (r >>= fun a => Pure.pure (f a)) s :=
  h.bind (j := 0) fun a _ ha _ => pure (hf a ha)

theorem le (h : Spends k Good Fail r s) (hj : j ≤ k) : Spends j Good Fail r s := by
  rw [Spends] at h ⊢
  cases hr : r s with
  | error e =>
    rw [hr] at h
    exact h
  | ok p =>
    obtain ⟨a, s'⟩ := p
    rw [hr] at h
    exact ⟨h.1, Nat.le_trans (Nat.add_le_add_left hj _) h.2⟩

theorem times (n : Nat) (h : ∀ s', s'.length ≤ s.length → Spends 0 Good Fail r s') :
    Spends 0 (fun as => ∀ a ∈ as, Good a) Fail (times r n) s := by
  induction n generalizing s with
  | zero => exact pure fun a ha => absurd ha List.not_mem_nil
  | succ n ih =>
    refine (h s (Nat.le_refl _)).bind (j := 0) fun a s' ha hs' => ?_
    refine (ih fun s'' hs'' => h s'' (by omega)).bind (j := 0) fun as s'' has _ => ?_
    exact pure (List.forall_mem_cons.mpr ⟨ha, has⟩)

end Spends

end Codes
