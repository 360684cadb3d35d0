import Mathlib.Data.List.Basic

/-!
# Two halves that are mixed in turns

In each round one half is mixed with a function of the other one, and the halves change places. If
mixing the same value in again takes it out, the rounds in the opposite order, from the halves
changed, lead back (`rounds_reverse`), whatever the functions of the rounds are.
-/

namespace Halves

variable {α : Type}

def round (op : α → α → α) (f : α → α) (p : α × α) : α × α := (p.2, op p.1 (f p.2))

def rounds (op : α → α → α) (fs : List (α → α)) (p : α × α) : α × α :=
  fs.foldl (fun p f => round op f p) p

variable {op : α → α → α}

@[simp] theorem rounds_nil (p : α × α) : rounds op [] p = p := rfl

@[simp] theorem rounds_cons (f : α → α) (fs : List (α → α)) (p : α × α) :
    rounds op (f :: fs) p = rounds op fs (round op f p) := rfl

theorem rounds_append (fs gs : List (α → α)) (p : α × α) :
    rounds op (fs ++ gs) p = rounds op gs (rounds op fs p) := by
  simp [rounds, List.foldl_append]

theorem round_swap (hop : ∀ x y, op (op x y) y = x) (f : α → α) (p : α × α) :
    round op f (round op f p).swap = p.swap := by
  cases p with
  | mk x y => simp [round, hop]

theorem rounds_reverse (hop : ∀ x y, op (op x y) y = x) (fs : List (α → α)) (p : α × α) :
    rounds op fs.reverse (rounds op fs p).swap = p.swap := by
  induction fs generalizing p with
  | nil => rfl
  | cons f fs ih =>
    rw [List.reverse_cons, rounds_append, rounds_cons f fs, ih]
    show round op f (round op f p).swap = p.swap
    exact round_swap hop f p

end Halves
