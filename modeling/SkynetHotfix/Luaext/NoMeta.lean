import SkynetHotfix.Luaext.Diverted

/-!
# Copies without metatables

`nometa` gets no further than the table that `table.copy` is called with, and
not even there in `table.deepcopy`; and `table.copy` without it is diverted by
`__newindex`. `copies_iff` says for which tables they nonetheless do what they
are for.
-/

namespace SkynetHotfix.Luaext

open Lua Fuel Relation

/-- The call returns `a`. -/
def Returns {α : Type} (f : Nat → Result α) (a : α) : Prop := ∃ n, ∀ fuel ≥ n, f fuel = .ok a

section

variable (order : Heap → Nat → List Value) (h : Heap) (t : Nat)

/-- `table.copy(t, true)` returns a copy in which no table at any depth carries a metatable,
whatever functions in `__newindex` do. -/
def CopyDropsMeta : Prop :=
  ∀ calls, ∃ r h', Returns (fun fuel => tableCopy order calls fuel t true h) (r, h') ∧
    CopyOf h h' (fun _ => True) t r ∧ ∀ u', Nested h' r u' → h'.metatable u' = none

/-- `table.deepcopy(t, true)` returns a copy in which no table at any depth carries a metatable. -/
def DeepcopyDropsMeta : Prop :=
  ∃ v' h' ι, Returns (fun fuel => tableDeepcopy order fuel (.table t) true h) (v', h') ∧
    Isomorphic h h' (.table t) v' ι ∧ ∀ u', Reaches h' v' u' → h'.metatable u' = none

/-- `table.copy(t)` returns a copy with the same raw keys and values at every depth, whatever
functions in `__newindex` do. -/
def CopyIsRaw : Prop :=
  ∀ calls, ∃ r h', Returns (fun fuel => tableCopy order calls fuel t false h) (r, h') ∧
    CopyOf h h' (fun _ => True) t r

variable {order h t}

theorem plain_of_none (hm : h.metatable t = none) : Plain h t where
  pairs := by rw [Heap.metafield, hm]
  settable := .inl (Heap.getmetatable_of_none hm)

theorem writable_of_none (hm : h.metatable t = none) : Writable h t where
  plain := plain_of_none hm
  raw := .inr fun m e => by
    rw [Heap.getmetatable_of_none hm] at e
    cases e

theorem copyDropsMeta_iff (horder : ∀ h t, (order h t).Perm (h.table t).keys) (hc : h.Closed)
    (ht : t < h.size) (hacyclic : ∀ u, Nested h t u → ¬TransGen (Child h) u u) :
    CopyDropsMeta order h t ↔ h.metafield t "__pairs" = .nil ∧
      ∀ u, TransGen (Child h) t u → h.metatable u = none := by
  have hclean : Clean h h := ⟨Nat.le_refl _, fun _ _ => rfl⟩
  constructor
  · intro hdrops
    obtain ⟨r, h', ⟨n, hr⟩, hcopy, hnone⟩ := hdrops Heap.raises
    obtain ⟨H, keys, hb, hpairs, hnodup, hmem, hq, hloop⟩ :=
      tableCopy_ok horder hc hclean ht (hr (n + 1) (Nat.le_succ n))
    have hr : r = h.size := hq
    have hfine : Fine h True h' t h.size :=
      CopyOf.iff_nested.mpr ⟨hr ▸ hcopy, fun u' hu' _ => hnone u' (hr ▸ hu')⟩
    refine ⟨hpairs, fun u hu => ?_⟩
    rcases children_judged True hc (tableCopy_judged True horder hc n) hclean hc ht hb
      (fun h => nomatch h) hnodup hmem hloop with ⟨-, hok⟩ | ⟨S, -, -, -, hbad⟩
    · exact (hok u hu).2 trivial
    · exact absurd hfine (hbad h' fun _ _ => rfl)
  · rintro ⟨hpairs, hnone⟩ calls
    obtain ⟨n, hn⟩ := tableCopy_built True horder hc (nested_acc hc ht hacyclic) true ht
      hpairs (fun h => nomatch h) fun u hu => ⟨writable_of_none (hnone u hu), fun _ => hnone u hu⟩
    obtain ⟨⟨r, h'⟩, hrun, hbuilt⟩ := (hn h hclean).returns id
    obtain ⟨hcopy, hall⟩ := CopyOf.iff_nested.mp hbuilt.copy
    exact ⟨r, h', ⟨n, hrun⟩, hcopy, fun u' hu' => (hall u' hu').2.2 trivial⟩

theorem copyIsRaw_iff (horder : ∀ h t, (order h t).Perm (h.table t).keys) (hc : h.Closed)
    (ht : t < h.size) (hacyclic : ∀ u, Nested h t u → ¬TransGen (Child h) u u) :
    CopyIsRaw order h t ↔ ∀ u, Nested h t u → Writable h u := by
  have hclean : Clean h h := ⟨Nat.le_refl _, fun _ _ => rfl⟩
  constructor
  · intro hraw u hu
    obtain ⟨r, h', ⟨n, hr⟩, hcopy⟩ := hraw Heap.raises
    rcases tableCopy_judged False horder hc n t h (r, h') hclean hc ht (hr n (Nat.le_refl n))
      with ⟨-, hok⟩ | ⟨S, -, -, -, hbad⟩
    · exact (hok u hu).1
    · exact absurd (hcopy.mono fun x _ => ⟨rfl, False.elim⟩) (hbad h' fun _ _ => rfl)
  · intro hw calls
    obtain ⟨n, hn⟩ := tableCopy_built False horder hc (nested_acc hc ht hacyclic) false ht
      (hw t .refl).plain.pairs (fun _ => ⟨hw t .refl, False.elim⟩)
      fun u hu => ⟨hw u hu.to_reflTransGen, False.elim⟩
    obtain ⟨⟨r, h'⟩, hrun, hbuilt⟩ := (hn h hclean).returns id
    exact ⟨r, h', ⟨n, hrun⟩, hbuilt.copy.mono fun _ _ => ⟨rfl, trivial⟩⟩

theorem metatable_of_metaValue (e : metaValue h t = .nil) : h.metatable t = none := by
  rw [metaValue] at e
  cases hm : h.metatable t with
  | none => rfl
  | some m =>
    rw [hm] at e
    cases e

theorem deepcopyDropsMeta_iff (horder : ∀ h t, (order h t).Perm (h.table t).keys) (hc : h.Closed)
    (ht : t < h.size) :
    DeepcopyDropsMeta order h t ↔ ∀ u, Reaches h (.table t) u → h.metatable u = none := by
  have hwhole := deepCopy_whole horder hc (.table t) fun u e => by
    cases e
    exact ht
  constructor
  · rintro ⟨v', h', ι, ⟨n, hr⟩, -, hnone⟩ u hu
    have hrun : tableDeepcopy order (max n (h.size + 1)) (.table t) true h = .ok (v', h') :=
      hr _ (Nat.le_max_left _ _)
    rw [tableDeepcopy, bind_eq_ok] at hrun
    obtain ⟨r, hrun, e⟩ := hrun
    cases e
    have hr := hwhole.post (Nat.le_max_right _ _) hrun
    have hmeta := hr.getmetatable hu
    rw [metaValue, hnone _ (hr.isomorphic.reaches hu)] at hmeta
    exact Heap.getmetatable_eq_nil hmeta
  · intro hnone
    have hplain : ¬Refused h (.table t) := by
      rintro ⟨u, hu, hn⟩
      exact hn (plain_of_none (hnone u hu))
    obtain ⟨r, hrun, hr⟩ := hwhole.returns hplain
    refine ⟨r.1, r.2.heap, partner r.2.lookup_table, ⟨h.size + 1, fun fuel hf => ?_⟩,
      hr.isomorphic, fun u' hu' => ?_⟩
    · show tableDeepcopy order fuel (.table t) true h = _
      rw [tableDeepcopy, hrun fuel hf]
      rfl
    · obtain ⟨u, hu, hm⟩ := hr.back hu'
      have hmeta := hr.getmetatable hu
      rw [partner_eq hr.sound.matched hm, Heap.getmetatable_of_none (hnone u hu)] at hmeta
      exact metatable_of_metaValue hmeta.symm

/-- For every acyclic nested table: `table.copy(t, true)` drops all metatables just where there are
none below `t`, `table.deepcopy(t, true)` where there are none at all, and `table.copy(t)` is a raw
copy just where each table has a metatable that can be set and has no `__newindex` (or no fields).
Throughout no `__pairs` may stand in the way. -/
theorem copies_iff (horder : ∀ h t, (order h t).Perm (h.table t).keys) (hc : h.Closed)
    (ht : t < h.size) (hacyclic : ∀ u, Nested h t u → ¬TransGen (Child h) u u) :
    (CopyDropsMeta order h t ↔ h.metafield t "__pairs" = .nil ∧
      ∀ u, TransGen (Child h) t u → h.metatable u = none) ∧
    (DeepcopyDropsMeta order h t ↔ ∀ u, Reaches h (.table t) u → h.metatable u = none) ∧
    (CopyIsRaw order h t ↔ ∀ u, Nested h t u → Writable h u) :=
  ⟨copyDropsMeta_iff horder hc ht hacyclic, deepcopyDropsMeta_iff horder hc ht,
    copyIsRaw_iff horder hc ht hacyclic⟩

end

/-- `{ a = u }` with `u = { x = 1 }`; the metatable `m` of the table `owner` has `__newindex`. -/
def nestHeap (owner : Nat) : Heap :=
  let empty : Heap := ⟨4, fun _ => .empty, fun _ => [], fun _ => .nil⟩
  (((empty.set 0 (.str "a") (.table 1)).set 1 (.str "x") (.num 1)).set 2 (.str "__newindex")
    (.table 3)).setMeta owner (some 2)

theorem nestHeap_child {owner u w : Nat} (hc : Child (nestHeap owner) u w) :
    u < w ∧ w < 4 := by
  obtain ⟨k, hk⟩ := hc
  simp only [nestHeap, Heap.get_setMeta, Heap.get_set] at hk
  split at hk
  · rename_i e
    cases hk
    omega
  split at hk
  · cases hk
  split at hk
  · rename_i e
    cases hk
    omega
  · cases hk

theorem nestHeap_closed (owner : Nat) : (nestHeap owner).Closed where
  field t k u _ hu := (nestHeap_child ⟨k, hu⟩).2
  key t u _ hu := by
    simp only [nestHeap, Heap.get_setMeta, Heap.get_set] at hu
    simp [Heap.get, Table.get, Table.empty] at hu
  metatable t m _ hm := by
    simp only [nestHeap, Heap.metatable_setMeta, Heap.metatable_set] at hm
    split at hm
    · cases hm
      exact Nat.lt_succ_of_lt (by decide)
    · cases hm

theorem nestHeap_lt {owner u w : Nat} (h : TransGen (Child (nestHeap owner)) u w) : u < w := by
  induction h with
  | single hc => exact (nestHeap_child hc).1
  | tail _ hc ih => exact ih.trans (nestHeap_child hc).1

theorem nestHeap_acyclic {owner u : Nat} : ¬TransGen (Child (nestHeap owner)) u u :=
  fun h => Nat.lt_irrefl u (nestHeap_lt h)

/-- With the metatable on the inner table all three fail. -/
theorem nested_metatable_stays :
    let order := fun (h : Heap) t => (h.table t).keys
    (nestHeap 1).Closed ∧ (∀ u, Nested (nestHeap 1) 0 u → ¬TransGen (Child (nestHeap 1)) u u) ∧
      ¬CopyDropsMeta order (nestHeap 1) 0 ∧ ¬DeepcopyDropsMeta order (nestHeap 1) 0 ∧
      ¬CopyIsRaw order (nestHeap 1) 0 := by
  have hchild : Child (nestHeap 1) 0 1 := ⟨.str "a", by decide⟩
  refine ⟨nestHeap_closed 1, fun u _ => nestHeap_acyclic, fun h => ?_, fun h => ?_, fun h => ?_⟩
  · have hnone := ((copyDropsMeta_iff (fun _ _ => .refl _) (nestHeap_closed 1) (by decide)
      fun u _ => nestHeap_acyclic).mp h).2 1 (.single hchild)
    revert hnone
    decide
  · have hnone := (deepcopyDropsMeta_iff (fun _ _ => .refl _) (nestHeap_closed 1)
      (by decide)).mp h 1 (.value (k := .str "a") (.root rfl) (by decide))
    revert hnone
    decide
  · have hraw := ((copyIsRaw_iff (fun _ _ => .refl _) (nestHeap_closed 1) (by decide)
      fun u _ => nestHeap_acyclic).mp h 1 (.single hchild)).raw
    rcases hraw with hraw | hraw
    · have := hraw (.str "x")
      revert this
      decide
    · have := hraw 2 (by decide)
      revert this
      decide

/-- With the metatable on the outer table only `table.copy(t, true)` does what it is for. -/
theorem copies_iff_outer :
    let order := fun (h : Heap) t => (h.table t).keys
    CopyDropsMeta order (nestHeap 0) 0 ∧ ¬DeepcopyDropsMeta order (nestHeap 0) 0 ∧
      ¬CopyIsRaw order (nestHeap 0) 0 := by
  obtain ⟨hcopy, hdeep, hraw⟩ := copies_iff
    (fun (h : Heap) t => .refl (h.table t).keys) (nestHeap_closed 0) (t := 0) (by decide)
    fun u _ => nestHeap_acyclic
  refine ⟨hcopy.mpr ⟨by decide, fun u hu => ?_⟩, fun h => ?_, fun h => ?_⟩
  · have hlt := nestHeap_lt hu
    rw [nestHeap, Heap.metatable_setMeta, if_neg (by omega)]
    simp only [Heap.metatable_set]
    rfl
  · have hnone := hdeep.mp h 0 (.root rfl)
    revert hnone
    decide
  · have hw := (hraw.mp h 0 .refl).raw
    rcases hw with hw | hw
    · have := hw (.str "a")
      revert this
      decide
    · have := hw 2 (by decide)
      revert this
      decide

end SkynetHotfix.Luaext
