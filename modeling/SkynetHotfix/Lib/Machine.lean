import Mathlib.Logic.Function.Basic

/-!
# State machines and their runs

A machine is a step function `exec` with a relation `ok` that says which
steps a state allows. `Reach` is what its runs reach; an invariant of a run
is proved by its step lemma alone (`Reach.invariant`), and steps that obey a
stronger rule reach no more (`Reach.mono`). A run without an end (`run`) is fair
to a kind of step that it does not pass over for ever (`Fair`); what changes
only for less in it comes to rest (`exists_rest`).
-/

namespace Machine

variable {S E : Type*} {exec : S → E → S} {ok ok' : S → E → Prop} {s₀ s : S}

/-- The states reached from `s₀` by steps that `ok` allows where they start. -/
inductive Reach (exec : S → E → S) (ok : S → E → Prop) (s₀ : S) : S → Prop
  | init : Reach exec ok s₀ s₀
  | step {s : S} (e : E) : Reach exec ok s₀ s → ok s e → Reach exec ok s₀ (exec s e)

/-- What holds at the start and is kept by every step allowed holds throughout. -/
theorem Reach.invariant {I : S → Prop} (h : Reach exec ok s₀ s) (h₀ : I s₀)
    (hs : ∀ s e, I s → ok s e → I (exec s e)) : I s := by
  induction h with
  | init => exact h₀
  | step e _ he ih => exact hs _ e ih he

/-- A stronger rule for the steps reaches no more states. -/
theorem Reach.mono (h : Reach exec ok s₀ s) (hok : ∀ s e, ok s e → ok' s e) :
    Reach exec ok' s₀ s := by
  induction h with
  | init => exact .init
  | step e _ he ih => exact .step e ih (hok _ e he)

/-- Steps one after the other, each allowed where it starts. -/
def Allowed (exec : S → E → S) (ok : S → E → Prop) : S → List E → Prop
  | _, [] => True
  | s, e :: es => ok s e ∧ Allowed exec ok (exec s e) es

instance decidableAllowed [∀ s e, Decidable (ok s e)] :
    ∀ (s : S) (es : List E), Decidable (Allowed exec ok s es)
  | _, [] => .isTrue trivial
  | s, e :: es =>
    have := decidableAllowed (exec s e) es
    inferInstanceAs (Decidable (ok s e ∧ Allowed exec ok (exec s e) es))

theorem Reach.run (h : Reach exec ok s₀ s) (es : List E) (hes : Allowed exec ok s es) :
    Reach exec ok s₀ (es.foldl exec s) := by
  induction es generalizing s with
  | nil => exact h
  | cons e es ih => exact ih (.step e h hes.1) hes.2

/-- The states of a run without an end. -/
def run (exec : S → E → S) (s₀ : S) (es : Nat → E) : Nat → S
  | 0 => s₀
  | n + 1 => exec (run exec s₀ es n) (es n)

theorem reach_run {es : Nat → E} (hok : ∀ n, ok (run exec s₀ es n) (es n)) (n : Nat) :
    Reach exec ok s₀ (run exec s₀ es n) := by
  induction n with
  | zero => exact .init
  | succ n ih => exact .step (es n) ih (hok n)

/-- What is possible from some time on takes place. -/
def Fair (possible occurs : Nat → Prop) : Prop :=
  ∀ n, (∀ m, n ≤ m → possible m) → ∃ m, n ≤ m ∧ occurs m

theorem exists_rest {X : Type*} {r : X → X → Prop} (hr : WellFounded r) {x : Nat → X}
    (hx : ∀ n, x (n + 1) = x n ∨ r (x (n + 1)) (x n)) : ∃ n, ∀ m, n ≤ m → x m = x n := by
  have key : ∀ a n, x n = a → ∃ k, n ≤ k ∧ ∀ m, k ≤ m → x m = x k := by
    intro a
    induction a using hr.induction with
    | _ a ih =>
      intro n hn
      by_cases hrest : ∀ m, n ≤ m → x m = x n
      · exact ⟨n, Nat.le_refl n, hrest⟩
      -- the first change behind `n` is for less
      have hleast : ∃ m, n ≤ m ∧ x m = x n ∧ x (m + 1) ≠ x m := by
        by_contra hnone
        apply hrest
        intro m hm
        induction hm with
        | refl => rfl
        | @step m hm ihm =>
          by_contra hne
          exact hnone ⟨m, hm, ihm, fun heq => hne (heq.trans ihm)⟩
      obtain ⟨m, hm, hsame, hne⟩ := hleast
      have hless : r (x (m + 1)) a := by
        rw [← hn, ← hsame]
        exact (hx m).resolve_left hne
      obtain ⟨k, hk, hrest⟩ := ih _ hless (m + 1) rfl
      exact ⟨k, by omega, hrest⟩
  obtain ⟨n, -, hn⟩ := key (x 0) 0 rfl
  exact ⟨n, hn⟩

end Machine
