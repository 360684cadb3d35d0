import Mathlib.Data.Fintype.Pi
import Mathlib.Data.Set.Finite.Lattice
import Mathlib.Data.Set.Finite.List
import SkynetHotfix.RawUpdater.May

/-!
# An update of a finite heap has finitely many keys

An update makes no tables, closures or cells: it moves values of the heap to
fields and cells of the heap. So the heaps it can lead to are finitely many,
whatever the `tostring` in force makes of them, and with them the keys of
`updated_sig` (`finite_signatures`).
-/

namespace SkynetHotfix.RawUpdater

open Lua
open ModuleUpdater (State Check Answer oldUpvalue findFunc metaName)

variable {env : Env} {h h' : Heap} {root : Task}

/-- Finitely many tables have fields or a metatable, and finitely many closures upvalues; all other
cells are empty. -/
structure FiniteHeap (h : Heap) : Prop where
  table : {t | h.table t ≠ Table.empty}.Finite
  closure : {f | h.closure f ≠ []}.Finite
  cell : {c | h.cell c ≠ .nil}.Finite

/-- The keys of the heap. -/
def keys (h : Heap) : Set Value := {k | ∃ t, h.get t k ≠ .nil}

/-- The upvalue cells of the heap. -/
def cells (h : Heap) : Set Nat := {c | ∃ f x, (x, c) ∈ h.closure f}

/-- The values that the heap holds, metatables and the objects of `root` with them. -/
def values (h : Heap) (root : Task) : Set Value :=
  {v | ∃ t k, h.get t k = v} ∪ {v | ∃ c, h.cell c = v} ∪
    {v | ∃ t m, h.metatable t = some m ∧ v = .table m} ∪
    match root with
    | .func f g => {.func f, .func g}
    | .table n o _ => {.table n, .table o}

/-! ## The closure of an update stays in the heap -/

/-- What a fact is about is in the heap. -/
def Fact.Within (h : Heap) (root : Task) : Fact → Prop
  | .meets (.func f g) => .func f ∈ values h root ∧ .func g ∈ values h root
  | .meets (.table n o _) => .table n ∈ values h root ∧ .table o ∈ values h root
  | .holds _ k v => v ∈ values h root ∧ (v ≠ .nil → k ∈ keys h)
  | .stored t k v => .table t ∈ values h root ∧ k ∈ keys h ∧ v ∈ values h root
  | .stops _ t _ p => .table t ∈ values h root → .table p ∈ values h root
  | .cell _ v => v ∈ values h root
  | .carried c v => c ∈ cells h ∧ v ∈ values h root

theorem metatable_mem {t m : Nat} (hm : h.metatable t = some m) : .table m ∈ values h root :=
  .inl (.inr ⟨t, m, hm, rfl⟩)

theorem May.within {fact : Fact} (hm : May env h root fact) : fact.Within h root := by
  induction hm with
  | root => cases root <;> exact ⟨.inr (by simp), .inr (by simp)⟩
  | init t k => exact ⟨.inl (.inl (.inl ⟨t, k, rfl⟩)), fun hn => ⟨t, hn⟩⟩
  | stored _ ih => exact ⟨ih.2.2, fun _ => ih.2.1⟩
  | cell c => exact .inl (.inl (.inr ⟨c, rfl⟩))
  | carried _ ih => exact ih.2
  | stopHere => exact id
  | stopBare => exact id
  | stopMeta => exact id
  | hop _ _ _ _ _ ihm ihq => exact fun _ => ihq ihm.1
  | store _ _ _ hn _ _ _ _ ih ihv _ _ ihq => exact ⟨ihq ih.2, ihv.2 hn, ihv.1⟩
  | fieldFunc _ _ _ _ _ _ ihf _ ihg => exact ⟨ihf.1, ihg.1⟩
  | fieldTable _ _ _ _ _ _ ihn _ iho => exact ⟨ihn.1, iho.1⟩
  | metas _ _ hn ho _ _ => exact ⟨metatable_mem hn, metatable_mem ho⟩
  | upFunc _ _ _ _ _ _ _ ihf ihg => exact ⟨ihf, ihg⟩
  | upTable _ _ _ _ _ _ _ ihn iho => exact ⟨ihn, iho⟩
  | carry _ _ hc _ _ _ _ _ _ _ ihw => exact ⟨⟨_, _, hc⟩, ihw⟩

/-! ## A finite heap -/

theorem get_empty (k : Value) : Table.empty.get k = .nil := by simp [Table.get, Table.empty]

theorem finite_keys (hf : FiniteHeap h) : (keys h).Finite := by
  refine (hf.table.biUnion (t := fun t => {k | k ∈ (h.table t).keys})
    fun t _ => List.finite_toSet _).subset ?_
  rintro k ⟨t, hk⟩
  have ht : h.table t ≠ Table.empty := fun e => hk (by rw [Heap.get, e, get_empty])
  exact Set.mem_biUnion (show t ∈ {t | h.table t ≠ Table.empty} from ht) (Table.mem_keys.mpr hk)

theorem finite_cells (hf : FiniteHeap h) : (cells h).Finite := by
  refine (hf.closure.biUnion (t := fun f => {c | c ∈ (h.closure f).map Prod.snd})
    fun f _ => List.finite_toSet _).subset ?_
  rintro c ⟨f, x, hc⟩
  have hne : h.closure f ≠ [] := List.ne_nil_of_mem hc
  have hm : c ∈ (h.closure f).map Prod.snd := List.mem_map.mpr ⟨(x, c), hc, rfl⟩
  exact Set.mem_biUnion (show f ∈ {f | h.closure f ≠ []} from hne) hm

theorem finite_values (hf : FiniteHeap h) : (values h root).Finite := by
  refine (((?_ : Set.Finite _).union ?_).union ?_).union ?_
  · refine (((hf.table.prod (finite_keys hf)).image fun p => h.get p.1 p.2).insert .nil).subset ?_
    rintro v ⟨t, k, rfl⟩
    by_cases hk : h.get t k = .nil
    · exact .inl hk
    · have ht : h.table t ≠ Table.empty := fun e => hk (by rw [Heap.get, e, get_empty])
      exact .inr ⟨(t, k), ⟨ht, t, hk⟩, rfl⟩
  · refine ((hf.cell.image h.cell).insert .nil).subset ?_
    rintro v ⟨c, rfl⟩
    by_cases hc : h.cell c = .nil
    · exact .inl hc
    · exact .inr ⟨c, hc, rfl⟩
  · refine (hf.table.image fun t => .table ((h.metatable t).getD 0)).subset ?_
    rintro v ⟨t, m, hm, rfl⟩
    refine ⟨t, fun e => ?_, by simp [hm]⟩
    rw [Heap.metatable, e] at hm
    cases hm
  · cases root <;> exact (Set.finite_singleton _).insert _

/-- Finitely many elements make finitely many lists without duplicates. -/
theorem finite_nodup_lists {α : Type*} {P : Set α} (hP : P.Finite) :
    {l : List α | l.Nodup ∧ ∀ a ∈ l, a ∈ P}.Finite := by
  classical
  have : Finite P := hP.to_subtype
  refine ((List.finite_length_le P hP.toFinset.card).image (List.map Subtype.val)).subset ?_
  rintro l ⟨hnd, hl⟩
  refine ⟨l.attach.map fun a => ⟨a.1, hl a.1 a.2⟩, ?_, by simp⟩
  have hc : l.toFinset.card ≤ hP.toFinset.card := Finset.card_le_card fun a ha => by
    simpa using hl a (List.mem_toFinset.mp ha)
  rw [List.toFinset_card_of_nodup hnd] at hc
  simpa using hc

/-- The tables that an update may make of the table `t`. -/
def tables (h : Heap) (root : Task) (t : Nat) : Set Table :=
  {tb | tb.metatable = h.metatable t ∧
    ∀ e ∈ tb.fields.entries, e.1 ∈ keys h ∧ e.2 ∈ values h root}

theorem finite_tables (hf : FiniteHeap h) (t : Nat) : (tables h root t).Finite := by
  have hP : {e : Sigma fun _ : Value => Value | e.1 ∈ keys h ∧ e.2 ∈ values h root}.Finite := by
    refine (((finite_keys hf).prod (@finite_values h root hf)).image
      fun p => (⟨p.1, p.2⟩ : Sigma fun _ : Value => Value)).subset ?_
    rintro ⟨k, v⟩ ⟨hk, hv⟩
    exact ⟨(k, v), ⟨hk, hv⟩, rfl⟩
  refine Set.Finite.of_injOn (f := fun tb : Table => tb.fields.entries) ?_ ?_ (finite_nodup_lists hP)
  · rintro tb ⟨-, he⟩
    exact ⟨tb.fields.nodupKeys.nodup, he⟩
  · rintro ⟨fs, m, _⟩ ⟨hm, -⟩ ⟨fs', m', _⟩ ⟨hm', -⟩ e
    cases hm.trans hm'.symm
    cases AList.ext e
    rfl

theorem Fits.table_mem (hf : Fits env h root h') (t : Nat) : h'.table t ∈ tables h root t := by
  refine ⟨hf.metatable t, ?_⟩
  rintro ⟨k, v⟩ he
  have hv : (h'.table t).fields.lookup k = some v := AList.mem_lookup_iff.mpr he
  have hg : h'.get t k = v := by rw [Heap.get, Table.get, hv]; rfl
  have hn : v ≠ .nil := fun e => (h'.table t).nonnil k (by rw [hv, e]; rfl)
  obtain ⟨h₁, h₂⟩ := (hf.holds t k).within
  rw [hg] at h₁ h₂
  exact ⟨h₂ hn, h₁⟩

/-- An update can only lead to finitely many heaps. -/
theorem finite_heaps (hf : FiniteHeap h) : {h' | Fits env h root h'}.Finite := by
  have hT : {t | (.table t : Value) ∈ values h root}.Finite :=
    (finite_values hf).preimage fun _ _ _ _ e => Value.table.inj e
  have := hT.to_subtype
  have := (finite_cells hf).to_subtype
  refine Set.Finite.of_injOn
    (f := fun h' => ((fun t : {t | (.table t : Value) ∈ values h root} => h'.table t),
      fun c : cells h => h'.cell c))
    (t := (Set.univ.pi fun t : {t | (.table t : Value) ∈ values h root} => tables h root t) ×ˢ
      Set.univ.pi fun _ : cells h => values h root) ?_ ?_
    ((Set.Finite.pi fun _ => finite_tables hf _).prod (Set.Finite.pi fun _ => finite_values hf))
  · intro h' hh
    exact ⟨fun t _ => hh.table_mem t, fun c _ => (hh.mayCell c).within⟩
  · rintro ⟨size, table, closure, cell⟩ h₁ ⟨size', table', closure', cell'⟩ h₂ e
    obtain ⟨e₁, e₂⟩ := Prod.mk.inj e
    have hs : size = size' := h₁.size.trans h₂.size.symm
    have hc : closure = closure' := h₁.closure.trans h₂.closure.symm
    have ht : table = table' := by
      funext t
      by_cases hm : (.table t : Value) ∈ values h root
      · exact congrFun e₁ ⟨t, hm⟩
      · have hn : ∀ k v, ¬ May env h root (.stored t k v) := fun k v hs => hm hs.within.1
        exact (h₁.untouched t hn).trans (h₂.untouched t hn).symm
    have hcell : cell = cell' := by
      funext c
      by_cases hm : c ∈ cells h
      · exact congrFun e₂ ⟨c, hm⟩
      · exact ((h₁.cell c).resolve_right fun hs => hm hs.within.1).trans
          ((h₂.cell c).resolve_right fun hs => hm hs.within.1).symm
    rw [hs, hc, ht, hcell]

/-- The keys that an update may add to `updated_sig`. -/
def signatures (env : Env) (h : Heap) (root : Task) : Set String :=
  {s | ∃ t h', May env h root (.meets t) ∧ Fits env h root h' ∧
    s = env.signature h' t.objs.1 t.objs.2}

theorem finite_signatures (hf : FiniteHeap h) : (signatures env h root).Finite := by
  have hV := @finite_values h root hf
  refine (((@finite_heaps env h root hf).prod (hV.prod hV)).image
    fun p : Heap × Value × Value => env.signature p.1 p.2.1 p.2.2).subset ?_
  rintro s ⟨t, h', hm, hh, rfl⟩
  refine ⟨(h', t.objs), ⟨hh, ?_⟩, rfl⟩
  cases t with
  | func f g => exact hm.within
  | table n o name => exact hm.within

/-- The pairs of tables that an update may compare. -/
theorem finite_pairs (hf : FiniteHeap h) :
    {p : Nat × Nat | ∃ name, May env h root (.meets (.table p.1 p.2 name))}.Finite := by
  have hT : {t | (.table t : Value) ∈ values h root}.Finite :=
    (finite_values hf).preimage fun _ _ _ _ e => Value.table.inj e
  refine (hT.prod hT).subset ?_
  rintro ⟨n, o⟩ ⟨name, hm⟩
  exact hm.within

end SkynetHotfix.RawUpdater
