import SkynetHotfix.Lua.Metatable

/-!
# Graphs of tables

What a value reaches in a heap, through fields and keys, and when two such
graphs are the same up to the identity of their tables. `Image` is the relation
of values under a list of pairs of tables, as a walk has matched them so far.
-/

namespace SkynetHotfix.Lua

/-- The tables that `v` reaches. -/
inductive Reaches (h : Heap) (v : Value) : Nat → Prop
  | root {t : Nat} (hv : v = .table t) : Reaches h v t
  | key {t u : Nat} (ht : Reaches h v t) (hk : h.get t (.table u) ≠ .nil) : Reaches h v u
  | value {t u : Nat} {k : Value} (ht : Reaches h v t) (hk : h.get t k = .table u) : Reaches h v u

/-- What is reached is there. -/
theorem Reaches.lt {h : Heap} {v : Value} {t : Nat} (hc : h.Closed)
    (hv : ∀ t, v = .table t → t < h.size) (ht : Reaches h v t) : t < h.size := by
  induction ht with
  | root e => exact hv _ e
  | key _ hk ih => exact hc.key _ _ ih hk
  | value _ hk ih => exact hc.field _ _ _ ih hk

/-- A value, with its table renamed. -/
def Value.rename (ι : Nat → Nat) : Value → Value
  | .table t => .table (ι t)
  | v => v

/-- What `v` reaches in `h` is what `v'` reaches in `h'`, up to the renaming `ι` of its tables. -/
structure Isomorphic (h h' : Heap) (v v' : Value) (ι : Nat → Nat) : Prop where
  root : v' = v.rename ι
  injective : ∀ t u, Reaches h v t → Reaches h v u → ι t = ι u → t = u
  field : ∀ t k, Reaches h v t → h.get t k ≠ .nil →
    h'.get (ι t) (k.rename ι) = (h.get t k).rename ι
  only : ∀ t k', Reaches h v t → h'.get (ι t) k' ≠ .nil →
    ∃ k, k' = k.rename ι ∧ h.get t k ≠ .nil

theorem Value.rename_ne_nil {v : Value} (ι : Nat → Nat) (hv : v ≠ .nil) : v.rename ι ≠ .nil := by
  cases v with
  | nil => exact absurd rfl hv
  | _ => exact Value.noConfusion

/-- What is reached is reached on the other side. -/
theorem Isomorphic.reaches {h h' : Heap} {v v' : Value} {ι : Nat → Nat} {t : Nat}
    (hi : Isomorphic h h' v v' ι) (ht : Reaches h v t) : Reaches h' v' (ι t) := by
  induction ht with
  | root e => exact .root (by rw [hi.root, e]; rfl)
  | @key t u ht hk ih =>
    refine .key ih ?_
    rw [show Value.table (ι u) = (Value.table u).rename ι from rfl, hi.field t _ ht hk]
    exact Value.rename_ne_nil ι hk
  | @value t u k ht hk ih =>
    refine .value (k := k.rename ι) ih ?_
    rw [hi.field t k ht (by rw [hk]; exact Value.noConfusion), hk]
    rfl

/-- `v'` is `v`, with the tables of the pairs `m` for each other. -/
def Image (m : List (Nat × Nat)) : Value → Value → Prop
  | .table t, v' => ∃ t', (t, t') ∈ m ∧ v' = .table t'
  | v, v' => v' = v

/-- No table stands in two pairs. -/
def Matched (m : List (Nat × Nat)) : Prop := ∀ e ∈ m, ∀ e' ∈ m, e.1 = e'.1 ↔ e.2 = e'.2

variable {m m' : List (Nat × Nat)} {v v' w w' : Value} {t t' : Nat}

theorem Image.mono (h : Image m v v') (hm : ∀ e ∈ m, e ∈ m') : Image m' v v' := by
  cases v with
  | table t =>
    obtain ⟨t', ht, rfl⟩ := h
    exact ⟨t', hm _ ht, rfl⟩
  | _ => exact h

/-- What is no table has itself for an image. -/
theorem image_of_not_table (hv : ∀ t, v ≠ .table t) : Image m v v := by
  cases v with
  | table t => exact absurd rfl (hv t)
  | _ => rfl

theorem Image.table (h : Image m v (.table t')) : ∃ t, v = .table t ∧ (t, t') ∈ m := by
  cases v with
  | table t =>
    obtain ⟨u, hu, e⟩ := h
    cases e
    exact ⟨t, rfl, hu⟩
  | _ => cases h

theorem Image.of_not_table (h : Image m v v') (hv : ∀ t, v' ≠ .table t) : v = v' := by
  cases v with
  | table t =>
    obtain ⟨u, -, rfl⟩ := h
    exact absurd rfl (hv u)
  | _ => exact h.symm

/-- Images under pairs that match determine each other. -/
theorem Image.inj (hm : Matched m) (h : Image m v v') (h' : Image m w v') : v = w := by
  by_cases hv : ∃ t', v' = .table t'
  · obtain ⟨t', rfl⟩ := hv
    obtain ⟨t, rfl, ht⟩ := h.table
    obtain ⟨u, rfl, hu⟩ := h'.table
    have e : t = u := (hm _ ht _ hu).mpr rfl
    rw [e]
  · have hv : ∀ t, v' ≠ .table t := fun t e => hv ⟨t, e⟩
    rw [h.of_not_table hv, h'.of_not_table hv]

/-- The renaming by pairs. -/
def partner (m : List (Nat × Nat)) (t : Nat) : Nat := (m.lookup t).getD t

theorem partner_eq (hm : Matched m) (h : (t, t') ∈ m) : partner m t = t' := by
  rw [partner]
  cases hl : m.lookup t with
  | none => simpa using List.lookup_eq_none_iff.mp hl _ h
  | some u =>
    obtain ⟨l₁, l₂, rfl, -⟩ := List.lookup_eq_some_iff.mp hl
    exact (hm (t, u) (by simp) (t, t') h).mp rfl

theorem Image.eq_rename (hm : Matched m) (h : Image m v v') : v' = v.rename (partner m) := by
  cases v with
  | table t =>
    obtain ⟨t', ht, rfl⟩ := h
    rw [Value.rename, partner_eq hm ht]
  | _ => exact h

/-- A pair of tables that are in no pair. -/
theorem Matched.cons (hm : Matched m) (ht : ∀ e ∈ m, e.1 ≠ t) (ht' : ∀ e ∈ m, e.2 ≠ t') :
    Matched ((t, t') :: m) := by
  intro e he e' he'
  rcases List.mem_cons.mp he with rfl | he <;> rcases List.mem_cons.mp he' with rfl | he'
  · simp
  · exact iff_of_false (ht e' he').symm (ht' e' he').symm
  · exact iff_of_false (ht e he) (ht' e he)
  · exact hm e he e' he'

end SkynetHotfix.Lua
