import Mathlib.Data.List.Basic

/-!
# Framing of a byte stream

A framer takes what it can make out from the front of a stream, and what it
takes does not depend on what comes later (`stable`). `Drains` says what it has
taken when it can take no more; a stream that comes in pieces is drained piece
by piece (`Drains.append`). `Along` says that something holds of every rest of
a stream at which the framer looks.
-/

universe u v

/-- A step takes something off a stream, with what it gives, or waits for more of it. -/
structure Framer (β : Type u) (γ : Type v) where
  step : List β → Option (List γ × List β)
  shorter : ∀ {bs out r}, step bs = some (out, r) → r.length < bs.length
  stable : ∀ {a out r} (b : List β), step a = some (out, r) → step (a ++ b) = some (out, r ++ b)

namespace Framer

variable {β : Type u} {γ : Type v} {F : Framer β γ} {a b r r' rest : List β} {xs ys : List γ}

/-- The framer gives `xs` for the stream and waits with the rest. -/
inductive Drains (F : Framer β γ) : List β → List γ → List β → Prop
  | stop {bs : List β} : F.step bs = none → Drains F bs [] bs
  | next {bs r rest : List β} {out outs : List γ} :
      F.step bs = some (out, r) → Drains F r outs rest → Drains F bs (out ++ outs) rest

theorem exists_drains (F : Framer β γ) (bs : List β) : ∃ xs rest, Drains F bs xs rest := by
  induction h : bs.length using Nat.strongRecOn generalizing bs with
  | _ n ih =>
    cases hs : F.step bs with
    | none => exact ⟨[], bs, .stop hs⟩
    | some p =>
      obtain ⟨out, r⟩ := p
      obtain ⟨xs, rest, hd⟩ := ih r.length (h ▸ F.shorter hs) r rfl
      exact ⟨_, rest, .next hs hd⟩

namespace Drains

theorem unique (h : Drains F a xs r) (h' : Drains F a ys r') : xs = ys ∧ r = r' := by
  induction h generalizing ys with
  | stop hs =>
    cases h' with
    | stop _ => exact ⟨rfl, rfl⟩
    | next hs' _ => cases hs.symm.trans hs'
  | next hs _ ih =>
    cases h' with
    | stop hs' => cases hs.symm.trans hs'
    | next hs' h' =>
      cases hs.symm.trans hs'
      obtain ⟨rfl, rfl⟩ := ih h'
      exact ⟨rfl, rfl⟩

/-- What is left waits. -/
theorem waits (h : Drains F a xs r) : F.step r = none := by
  induction h with
  | stop hs => exact hs
  | next _ _ ih => exact ih

/-- A stream in two pieces: what is left of the first goes before the second. -/
theorem append (h : Drains F a xs r) (h' : Drains F (r ++ b) ys r') :
    Drains F (a ++ b) (xs ++ ys) r' := by
  induction h with
  | stop _ => exact h'
  | next hs _ ih =>
    rw [List.append_assoc]
    exact .next (F.stable b hs) (ih h')

end Drains

/-- The rests of a stream at which the framer looks. -/
inductive Reaches (F : Framer β γ) : List β → List β → Prop
  | refl {bs : List β} : Reaches F bs bs
  | step {bs r rest : List β} {out : List γ} :
      F.step bs = some (out, r) → Reaches F r rest → Reaches F bs rest

theorem Reaches.append (h : Reaches F a r) (b : List β) : Reaches F (a ++ b) (r ++ b) := by
  induction h with
  | refl => exact .refl
  | step hs _ ih => exact .step (F.stable b hs) ih

/-- `P` holds wherever the framer looks. -/
def Along (F : Framer β γ) (P : List β → Prop) (bs : List β) : Prop :=
  ∀ r, Reaches F bs r → P r

namespace Along

variable {P Q : List β → Prop}

theorem here (h : Along F P a) : P a := h a .refl

theorem step {out : List γ} (h : Along F P a) (hs : F.step a = some (out, r)) : Along F P r :=
  fun r' hr' => h r' (.step hs hr')

/-- It goes on with what is left of a piece. -/
theorem drained (h : Along F P (a ++ b)) (hd : Drains F a xs r) : Along F P (r ++ b) := by
  induction hd with
  | stop _ => exact h
  | next hs _ ih => exact ih (h.step (F.stable b hs))

theorem of_stop (h : P a) (hs : F.step a = none) : Along F P a := by
  intro r hr
  cases hr with
  | refl => exact h
  | step hs' _ => cases hs.symm.trans hs'

theorem of_step {out : List γ} (h : P a) (hs : F.step a = some (out, r)) (hr : Along F P r) :
    Along F P a := by
  intro r' hr'
  cases hr' with
  | refl => exact h
  | step hs' h' =>
    cases hs.symm.trans hs'
    exact hr r' h'

theorem of_append (h : Along F P (a ++ b)) (hP : ∀ r, P (r ++ b) → Q r) : Along F Q a :=
  fun r hr => hP r (h _ (hr.append b))

/-- It holds of a stream if it does of a piece and of what follows. -/
theorem of_drained (h : Along F P a) (hd : Drains F a xs r)
    (hP : ∀ r out r', P r → F.step r = some (out, r') → P (r ++ b)) (hr : Along F P (r ++ b)) :
    Along F P (a ++ b) := by
  induction hd with
  | stop _ => exact hr
  | next hs _ ih => exact .of_step (hP _ _ _ h.here hs) (F.stable b hs) (ih (h.step hs) hr)

end Along

end Framer
