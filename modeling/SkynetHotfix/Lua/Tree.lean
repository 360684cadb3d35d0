import Mathlib.Data.Fintype.Card
import Mathlib.Data.Set.Finite.Basic
import Mathlib.Logic.Relation
import SkynetHotfix.Lua.Metatable

/-!
# Nested tables

The tables within a table, by their values, and copies of a table with all that
is nested in it.
-/

namespace SkynetHotfix.Lua

open Relation

/-- `w` stands in a field of `u`. -/
def Child (h : Heap) (u w : Nat) : Prop := ∃ k, h.get u k = .table w

/-- The tables within a table, at any depth, and the table itself. -/
abbrev Nested (h : Heap) : Nat → Nat → Prop := ReflTransGen (Child h)

/-- `t'` in `h'` is a copy of `t` in `h`: it has the same raw keys and values, but for the tables
among these, whose copies it has. Each table of the copy is one of `M`. -/
inductive CopyOf (h h' : Heap) (M : Nat → Prop) : Nat → Nat → Prop
  | mk {t t' : Nat} (copy : Value → Nat) (hM : M t')
    (scalar : ∀ k, (∀ u, h.get t k ≠ .table u) → h'.get t' k = h.get t k)
    (table : ∀ k u, h.get t k = .table u → h'.get t' k = .table (copy k))
    (sub : ∀ k u, h.get t k = .table u → CopyOf h h' M u (copy k)) : CopyOf h h' M t t'

namespace CopyOf

variable {h h' h'' : Heap} {M M' : Nat → Prop} {t t' : Nat}

theorem root (hc : CopyOf h h' M t t') : M t' := by
  cases hc with
  | mk _ hM => exact hM

theorem field {k : Value} {u : Nat} (hc : CopyOf h h' M t t') (hk : h.get t k = .table u) :
    ∃ u', h'.get t' k = .table u' ∧ CopyOf h h' M u u' := by
  cases hc with
  | mk copy _ _ table sub => exact ⟨copy k, table k u hk, sub k u hk⟩

theorem scalar {k : Value} (hc : CopyOf h h' M t t') (hk : ∀ u, h.get t k ≠ .table u) :
    h'.get t' k = h.get t k := by
  cases hc with
  | mk _ _ scalar => exact scalar k hk

/-- A copy has no other keys. -/
theorem get_ne_nil {k : Value} (hc : CopyOf h h' M t t') (hk : h.get t k ≠ .nil) :
    h'.get t' k ≠ .nil := by
  by_cases hu : ∃ u, h.get t k = .table u
  · obtain ⟨u, hu⟩ := hu
    obtain ⟨u', hu', -⟩ := hc.field hu
    rw [hu']
    exact Value.noConfusion
  · rw [hc.scalar fun u e => hu ⟨u, e⟩]
    exact hk

/-- A copy by its fields. -/
theorem of_fields (hM : M t')
    (hscalar : ∀ k, (∀ u, h.get t k ≠ .table u) → h'.get t' k = h.get t k)
    (htable : ∀ k u, h.get t k = .table u →
      ∃ u', h'.get t' k = .table u' ∧ CopyOf h h' M u u') : CopyOf h h' M t t' := by
  have hcopy : ∀ k, ∃ u', ∀ u, h.get t k = .table u →
      h'.get t' k = .table u' ∧ CopyOf h h' M u u' := by
    intro k
    by_cases hu : ∃ u, h.get t k = .table u
    · obtain ⟨u, hu⟩ := hu
      obtain ⟨u', hu'⟩ := htable k u hu
      refine ⟨u', fun w hw => ?_⟩
      cases hu.symm.trans hw
      exact hu'
    · exact ⟨0, fun u e => absurd ⟨u, e⟩ hu⟩
  choose copy hcopy using hcopy
  exact mk copy hM hscalar (fun k u hk => (hcopy k u hk).1) fun k u hk => (hcopy k u hk).2

/-- A copy stays one where its tables are left alone. -/
theorem mono (hc : CopyOf h h' M t t') (hM : ∀ x, M x → h''.table x = h'.table x ∧ M' x) :
    CopyOf h h'' M' t t' := by
  induction hc with
  | mk copy hM' scalar table _ ih =>
    obtain ⟨e, hm⟩ := hM _ hM'
    exact mk copy hm (fun k hk => (Heap.get_congr e k).trans (scalar k hk))
      (fun k u hk => (Heap.get_congr e k).trans (table k u hk)) ih

/-- The tables of a copy are those within it. -/
theorem iff_nested : CopyOf h h' M t t' ↔
    CopyOf h h' (fun _ => True) t t' ∧ ∀ u', Nested h' t' u' → M u' := by
  constructor
  · intro hc
    refine ⟨hc.mono fun x _ => ⟨rfl, trivial⟩, fun u' hu' => ?_⟩
    have key : ∃ u, CopyOf h h' M u u' := by
      induction hu' with
      | refl => exact ⟨t, hc⟩
      | tail _ hk ih =>
        obtain ⟨u, hu⟩ := ih
        obtain ⟨k, hk⟩ := hk
        by_cases hw : ∃ w, h.get u k = .table w
        · obtain ⟨w, hw⟩ := hw
          obtain ⟨w', hw', hcw⟩ := hu.field hw
          cases hw'.symm.trans hk
          exact ⟨w, hcw⟩
        · rw [hu.scalar fun w e => hw ⟨w, e⟩] at hk
          exact absurd ⟨_, hk⟩ hw
    obtain ⟨u, hu⟩ := key
    exact hu.root
  · rintro ⟨hc, hM⟩
    induction hc with
    | mk copy _ scalar table _ ih =>
      exact mk copy (hM _ .refl) scalar table fun k u hk =>
        ih k u hk fun u' hu' => hM u' (.head ⟨k, table k u hk⟩ hu')

end CopyOf

/-- A walk from `a` that stays in a finite set and never comes back ends. -/
theorem acc_of_acyclic {α : Type*} {r : α → α → Prop} {a : α}
    (hfin : {b | ReflTransGen r a b}.Finite) (h : ∀ b, ReflTransGen r a b → ¬TransGen r b b) :
    Acc (fun x y => r y x) a := by
  have hfinite : Finite {b // ReflTransGen r a b} := hfin
  let s : {b // ReflTransGen r a b} → {b // ReflTransGen r a b} → Prop :=
    fun x y => TransGen r y.1 x.1
  have htrans : IsTrans _ s := ⟨fun _ _ _ hxy hyz => hyz.trans hxy⟩
  have hirrefl : Std.Irrefl s := ⟨fun x => h x.1 x.2⟩
  have hwf : WellFounded s := Finite.wellFounded_of_trans_of_irrefl s
  have key : ∀ x : {b // ReflTransGen r a b}, Acc (fun x y => r y x) x.1 := by
    intro x
    induction x using hwf.induction with
    | _ x ih => exact Acc.intro _ fun y hy => ih ⟨y, x.2.tail hy⟩ (.single hy)
  exact key ⟨a, .refl⟩

/-- What is within a table is there. -/
theorem Nested.lt {h : Heap} {t u : Nat} (hc : h.Closed) (ht : t < h.size) (hu : Nested h t u) :
    u < h.size := by
  induction hu with
  | refl => exact ht
  | tail _ hk ih =>
    obtain ⟨k, hk⟩ := hk
    exact hc.field _ k _ ih hk

/-- A table that is within no table of its own has a depth. -/
theorem nested_acc {h : Heap} {t : Nat} (hc : h.Closed) (ht : t < h.size)
    (hacyclic : ∀ u, Nested h t u → ¬TransGen (Child h) u u) :
    Acc (fun w u => Child h u w) t :=
  acc_of_acyclic ((Set.finite_lt_nat h.size).subset fun _ hu => Nested.lt hc ht hu) hacyclic

end SkynetHotfix.Lua
