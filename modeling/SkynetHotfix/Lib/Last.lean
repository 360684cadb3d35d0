import Mathlib.Data.List.AList
import Mathlib.Data.List.Perm.Basic

/-!
# The last of a list that counts

What is left of a sequence of writes to one place is the last of them that is
to that place: `last f l`, where `f` gives what an element writes there.
-/

namespace Last

variable {α β : Type*} {f : α → Option β} {l l' : List α} {b : β}

/-- What `f` finds last. -/
def last (f : α → Option β) (l : List α) : Option β := l.reverse.findSome? f

@[simp] theorem last_nil (f : α → Option β) : last f [] = none := rfl

theorem last_append (f : α → Option β) (l l' : List α) :
    last f (l ++ l') = (last f l').or (last f l) := by
  simp [last]

@[simp] theorem last_singleton (f : α → Option β) (a : α) : last f [a] = f a := by
  cases h : f a <;> simp [last, h]

theorem last_cons (f : α → Option β) (a : α) (l : List α) :
    last f (a :: l) = (last f l).or (f a) := by
  rw [← List.singleton_append, last_append, last_singleton]

theorem last_eq_none : last f l = none ↔ ∀ a ∈ l, f a = none := by
  simp [last]

theorem exists_of_last (h : last f l = some b) : ∃ a ∈ l, f a = some b := by
  obtain ⟨a, ha, hb⟩ := List.exists_of_findSome?_eq_some h
  exact ⟨a, List.mem_reverse.mp ha, hb⟩

/-- Where all that `f` finds is one thing, that is the last. -/
theorem last_eq_some {a : α} (ha : a ∈ l) (hf : f a = some b)
    (hu : ∀ a ∈ l, ∀ b', f a = some b' → b' = b) : last f l = some b := by
  cases hb : last f l with
  | none =>
    rw [last_eq_none.mp hb a ha] at hf
    cases hf
  | some b' =>
    obtain ⟨a', ha', hf'⟩ := exists_of_last hb
    rw [hu a' ha' b' hf']

/-- Where all that `f` finds is the same, the order does not matter. -/
theorem last_perm (h : l.Perm l')
    (hf : ∀ a ∈ l, ∀ a' ∈ l, ∀ b b', f a = some b → f a' = some b' → b = b') :
    last f l = last f l' := by
  cases hb : last f l with
  | none => exact (last_eq_none.mpr fun a ha => last_eq_none.mp hb a (h.mem_iff.mpr ha)).symm
  | some b =>
    obtain ⟨a, ha, hfa⟩ := exists_of_last hb
    refine (last_eq_some (h.mem_iff.mp ha) hfa fun a' ha' b' hb' => ?_).symm
    exact hf a' (h.mem_iff.mpr ha') a ha b' b hb' hfa

theorem last_congr {g : α → Option β} (h : ∀ a ∈ l, f a = g a) : last f l = last g l := by
  induction l with
  | nil => rfl
  | cons a l ih =>
    rw [last_cons, last_cons, h a List.mem_cons_self,
      ih fun a' ha' => h a' (List.mem_cons_of_mem _ ha')]

/-! ## Tables -/

variable {κ : Type*} [DecidableEq κ] {key : α → κ} {k : κ} {a : α}

/-- The last with a key. -/
def lastAt (key : α → κ) (k : κ) (l : List α) : Option α :=
  last (fun a => if key a = k then some a else none) l

theorem mem_of_lastAt (h : lastAt key k l = some a) : a ∈ l ∧ key a = k := by
  obtain ⟨a', ha', h⟩ := exists_of_last h
  split at h
  · cases h
    exact ⟨ha', ‹_›⟩
  · cases h

theorem exists_lastAt (key : α → κ) (ha : a ∈ l) : ∃ a', lastAt key (key a) l = some a' := by
  cases h : lastAt key (key a) l with
  | none =>
    have hnone := last_eq_none.mp h a ha
    rw [if_pos rfl] at hnone
    cases hnone
  | some a' => exact ⟨a', rfl⟩

/-- The last with a coarser key is the last with its own. -/
theorem lastAt_of_refines {κ' : Type*} [DecidableEq κ'] {key' : α → κ'} {k' : κ'}
    (href : ∀ a ∈ l, key a = k → key' a = k') (h : lastAt key' k' l = some a) (hk : key a = k) :
    lastAt key k l = some a := by
  induction l with
  | nil => cases h
  | cons b l ih =>
    have href' : ∀ a ∈ l, key a = k → key' a = k' := fun a ha => href a (List.mem_cons_of_mem b ha)
    rw [lastAt, last_cons] at h ⊢
    cases hl : last (fun a => if key' a = k' then some a else none) l with
    | some a' =>
      rw [hl] at h
      cases h
      have hlast : last (fun a => if key a = k then some a else none) l = some a := ih href' hl
      rw [hlast]
      rfl
    | none =>
      have hnone : last (fun a => if key a = k then some a else none) l = none := by
        refine last_eq_none.mpr fun a ha => if_neg fun hka => ?_
        have hne := last_eq_none.mp hl a ha
        rw [if_pos (href' a ha hka)] at hne
        cases hne
      rw [hl, Option.none_or] at h
      rw [hnone, Option.none_or]
      split at h
      · cases h
        exact if_pos hk
      · cases h

/-- Nothing with a coarser key, nothing with the key. -/
theorem lastAt_eq_none : lastAt key k l = none ↔ ∀ a ∈ l, key a ≠ k := by
  refine last_eq_none.trans (forall₂_congr fun a _ => ?_)
  split <;> simp [*]

/-- What the last with the key writes, if it writes. -/
theorem last_of_lastAt {g : α → Option β} (h : lastAt key k l = some a) (hg : g a = some b) :
    last (fun a => if key a = k then g a else none) l = some b := by
  induction l with
  | nil => cases h
  | cons c l ih =>
    rw [lastAt, last_cons] at h
    rw [last_cons]
    cases hl : last (fun a => if key a = k then some a else none) l with
    | some a' =>
      rw [hl] at h
      cases h
      rw [ih hl]
      rfl
    | none =>
      have hnone : last (fun a => if key a = k then g a else none) l = none :=
        last_eq_none.mpr fun a ha => if_neg (lastAt_eq_none.mp hl a ha)
      rw [hl, Option.none_or] at h
      rw [hnone, Option.none_or]
      split at h
      · cases h
        rw [if_pos ‹_›, hg]
      · cases h

/-- A table into which a list is put one after the other. -/
theorem lookup_foldl_insert (key : α → κ) (value : α → β) (l : List α) (m : AList fun _ : κ => β)
    (k : κ) :
    (l.foldl (fun m a => m.insert (key a) (value a)) m).lookup k =
      ((lastAt key k l).map value).or (m.lookup k) := by
  induction l generalizing m with
  | nil => rfl
  | cons a l ih =>
    rw [List.foldl_cons, ih, lastAt, lastAt, last_cons]
    by_cases h : key a = k
    · rw [if_pos h, ← h, AList.lookup_insert]
      cases last (fun b => if key b = key a then some b else none) l <;> rfl
    · rw [if_neg h, Option.or_none, AList.lookup_insert_ne fun e => h e.symm]

end Last
