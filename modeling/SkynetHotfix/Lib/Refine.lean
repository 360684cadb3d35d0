import Mathlib.Logic.Basic

/-!
# Refinement

A program whose steps may fail, and a specification that says which results a step may have. Where
each step of the program does what the specification allows, as long as the program is used by its
rules (`ok`), its runs have only results that the specification allows (`Run.refines`).
-/

namespace Refine

variable {S A E R : Type*}

/-- The runs of a program, with what its steps returned. -/
inductive Run (exec : S → E → Option (S × R)) (ok : S → E → Prop) (s₀ : S) : List (E × R) → S → Prop
  | nil : Run exec ok s₀ [] s₀
  | step {s s' : S} {trace : List (E × R)} {e : E} {r : R} : Run exec ok s₀ trace s → ok s e →
      exec s e = some (s', r) → Run exec ok s₀ (trace ++ [(e, r)]) s'

/-- The runs that a specification allows. -/
inductive Allows (step : A → E → R → A → Prop) (a₀ : A) : List (E × R) → A → Prop
  | nil : Allows step a₀ [] a₀
  | step {a a' : A} {trace : List (E × R)} {e : E} {r : R} : Allows step a₀ trace a →
      step a e r a' → Allows step a₀ (trace ++ [(e, r)]) a'

/-- Steps that the program takes without failing, and that the specification allows. -/
def Steps (exec : S → E → Option (S × R)) (step : A → E → R → A → Prop) (rel : S → A → Prop)
    (s : S) (a : A) (e : E) : Prop :=
  ∃ s' r a', exec s e = some (s', r) ∧ step a e r a' ∧ rel s' a'

variable {exec : S → E → Option (S × R)} {ok : S → E → Prop} {step : A → E → R → A → Prop}
  {rel : S → A → Prop} {s₀ s : S} {a₀ : A} {trace : List (E × R)}

theorem Run.refines (h : Run exec ok s₀ trace s) (h₀ : rel s₀ a₀)
    (hs : ∀ s a e, rel s a → ok s e → Steps exec step rel s a e) :
    ∃ a, Allows step a₀ trace a ∧ rel s a := by
  induction h with
  | nil => exact ⟨a₀, .nil, h₀⟩
  | step _ hok he ih =>
    obtain ⟨a, hallows, hrel⟩ := ih
    obtain ⟨s', r, a', he', hstep, hrel⟩ := hs _ a _ hrel hok
    obtain ⟨rfl, rfl⟩ := Prod.mk.inj (Option.some.inj (he'.symm.trans he))
    exact ⟨a', hallows.step hstep, hrel⟩

end Refine
