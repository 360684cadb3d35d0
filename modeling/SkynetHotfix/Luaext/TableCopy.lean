import SkynetHotfix.Lib.Settles
import SkynetHotfix.Lua.Tree
import SkynetHotfix.Luaext.Cloned

/-!
# When `table.copy` copies

`table.copy` gives its result the metatable before the fields, so each of its
assignments is raw just when that metatable has no `__newindex`. Where that is
so of every table within `t` (`Writable`), `tableCopy_built` says that the call
returns a copy, and that the tables there were are left alone.
-/

namespace SkynetHotfix.Luaext

open Lua Fuel Relation

/-- A table that can be copied, and whose copy has no `__newindex` that a field of it would go
to. -/
structure Writable (h : Heap) (u : Nat) : Prop where
  plain : Plain h u
  raw : (∀ k, h.get u k = .nil) ∨
    ∀ m, h.getmetatable u = .table m → h.get m (.str "__newindex") = .nil

section

variable {order : Heap → Nat → List Value} {calls : Heap.Calls} {h₀ B H : Heap}
  {bare : Prop} {w r : Nat}
  {mt : Option Nat} {met : List Value}

theorem tableCopyField_table {copy : Nat → Heap → Result (Nat × Heap)} {key : Value} {u : Nat}
    (hk : H.get w key = .table u) :
    tableCopyField calls copy w r H key =
      copy u H >>= fun p => orRaise (p.2.setIndex calls r key (.table p.1)) := by
  simp only [tableCopyField, hk]

theorem tableCopyField_scalar {copy : Nat → Heap → Result (Nat × Heap)} {key : Value}
    (hn : H.get w key ≠ .nil) (hk : ∀ u, H.get w key ≠ .table u) :
    tableCopyField calls copy w r H key = orRaise (H.setIndex calls r key (H.get w key)) := by
  unfold tableCopyField
  split
  · rename_i e
    exact absurd e hn
  · rename_i u e
    exact absurd e (hk u)
  · rfl

/-- The calls within `table.copy`. -/
abbrev innerCopy (order : Heap → Nat → List Value) (calls : Heap.Calls) (fuel : Nat) :
    Nat → Heap → Result (Nat × Heap) :=
  fun u h => tableCopy order calls fuel u false h

/-- The beginning of `table.copy`: a new table with its metatable. -/
def beginCopy (h : Heap) (t : Nat) (nometa : Bool) : Result Heap :=
  if nometa then .ok h.newTable.2
  else orRaise (h.newTable.2.setmetatable h.size (h.newTable.2.getmetatable t))

theorem tableCopy_succ (fuel : Nat) (nometa : Bool) :
    tableCopy order calls (fuel + 1) w nometa H =
      beginCopy H w nometa >>= fun h => orRaise (h.pairs order w) >>= fun keys =>
        keys.foldlM (tableCopyField calls (innerCopy order calls fuel) w H.size) h >>=
          fun h => .ok (H.size, h) := by
  cases nometa <;> rfl

/-- The tables there were are as they were. -/
structure Clean (h₀ H : Heap) : Prop where
  size : h₀.size ≤ H.size
  orig : ∀ t < h₀.size, H.table t = h₀.table t

/-- A metatable without `__newindex`. -/
def RawMeta (h : Heap) (mt : Option Nat) : Prop :=
  ∀ m, mt = some m → m < h.size ∧ h.get m (.str "__newindex") = .nil

/-- With such a metatable assignment is raw. -/
theorem setIndex_raw (hcl : Clean h₀ H) (hraw : RawMeta h₀ (H.metatable r)) (key v : Value) :
    H.setIndex calls r key v = some (H.set r key v) := by
  rw [Heap.setIndex, Heap.maxHops, Heap.assign]
  by_cases hk : H.get r key ≠ .nil
  · rw [if_pos hk]
  · rw [if_neg hk]
    cases hm : H.metatable r with
    | none => rfl
    | some m =>
      obtain ⟨hlt, hn⟩ := hraw m hm
      rw [← Heap.get_congr (hcl.orig m hlt)] at hn
      simp only [hn]

/-- `x` is one of the tables from `b` on; with `bare` it has no metatable. -/
def NewFrom (bare : Prop) (b : Nat) (H : Heap) (x : Nat) : Prop :=
  b ≤ x ∧ x < H.size ∧ (bare → H.metatable x = none)

/-- What a call of `table.copy` makes: a copy of new tables. -/
structure Built (h₀ : Heap) (bare : Prop) (w : Nat) (H : Heap) (p : Nat × Heap) : Prop where
  size : H.size ≤ p.2.size
  frame : ∀ x < H.size, p.2.table x = H.table x
  copy : CopyOf h₀ p.2 (NewFrom bare H.size p.2) w p.1

/-- The loop that fills the first table that is new since `B` from `w`, having met the keys
`met`. -/
structure Growing (h₀ : Heap) (bare : Prop) (w : Nat) (B : Heap) (mt : Option Nat)
    (met : List Value) (H : Heap) : Prop where
  clean : Clean h₀ H
  base : h₀.size ≤ B.size
  size : B.size < H.size
  frame : ∀ x < B.size, H.table x = B.table x
  meta_ : H.metatable B.size = mt
  scalar : ∀ k ∈ met, (∀ u, h₀.get w k ≠ .table u) → H.get B.size k = h₀.get w k
  table : ∀ k ∈ met, ∀ u, h₀.get w k = .table u → ∃ u', H.get B.size k = .table u' ∧
    CopyOf h₀ H (NewFrom bare (B.size + 1) H) u u'
  rest : ∀ k, k ∉ met → H.get B.size k = .nil

theorem Growing.call {u : Nat} {p : Nat × Heap} (hg : Growing h₀ bare w B mt met H)
    (hp : Built h₀ bare u H p) : Growing h₀ bare w B mt met p.2 := by
  have hr := hp.frame B.size hg.size
  have hsize := hp.size
  have hbase := hg.size
  refine ⟨⟨hg.clean.size.trans hsize, fun x hx => ?_⟩, hg.base, Nat.lt_of_lt_of_le hbase hsize,
    fun x hx => (hp.frame x (by omega)).trans (hg.frame x hx), ?_, fun k hk hu => ?_,
    fun k hk u hu => ?_, fun k hk => ?_⟩
  · rw [hp.frame x (Nat.lt_of_lt_of_le hx hg.clean.size)]
    exact hg.clean.orig x hx
  · rw [Heap.metatable_congr hr]
    exact hg.meta_
  · rw [Heap.get_congr hr]
    exact hg.scalar k hk hu
  · obtain ⟨u', hu', hcopy⟩ := hg.table k hk u hu
    refine ⟨u', by rw [Heap.get_congr hr]; exact hu', hcopy.mono fun x hx => ?_⟩
    obtain ⟨hlt, hxs, hb⟩ := hx
    have e := hp.frame x hxs
    exact ⟨e, hlt, by omega, fun hbare => by rw [Heap.metatable_congr e]; exact hb hbare⟩
  · rw [Heap.get_congr hr]
    exact hg.rest k hk

/-- A field is put: the value, or the copy of the table. -/
theorem Growing.put {key v' : Value} (hg : Growing h₀ bare w B mt met H)
    (hscalar : (∀ u, h₀.get w key ≠ .table u) → v' = h₀.get w key)
    (htable : ∀ u, h₀.get w key = .table u → ∃ u', v' = .table u' ∧
      CopyOf h₀ H (NewFrom bare (B.size + 1) H) u u') :
    Growing h₀ bare w B mt (met ++ [key]) (H.set B.size key v') := by
  have hbase := hg.base
  have hmono : ∀ {u u'}, CopyOf h₀ H (NewFrom bare (B.size + 1) H) u u' →
      CopyOf h₀ (H.set B.size key v') (NewFrom bare (B.size + 1) (H.set B.size key v')) u u' := by
    intro u u' hcopy
    refine hcopy.mono fun x hx => ?_
    obtain ⟨hlt, hxs, hb⟩ := hx
    refine ⟨Heap.table_set_ne H (by omega) _ _, hlt, hxs, ?_⟩
    rw [Heap.metatable_set]
    exact hb
  have hget : ∀ k, k ≠ key → (H.set B.size key v').get B.size k = H.get B.size k := fun k hk => by
    rw [Heap.get_set, if_neg fun e => hk e.2]
  have hself : (H.set B.size key v').get B.size key = v' := by
    rw [Heap.get_set, if_pos ⟨rfl, rfl⟩]
  refine ⟨⟨hg.clean.size, fun x hx => ?_⟩, hg.base, hg.size, fun x hx => ?_, ?_,
    fun k hk hu => ?_, fun k hk u hu => ?_, fun k hk => ?_⟩
  · rw [Heap.table_set_ne H (by omega)]
    exact hg.clean.orig x hx
  · rw [Heap.table_set_ne H (by omega)]
    exact hg.frame x hx
  · rw [Heap.metatable_set]
    exact hg.meta_
  · by_cases e : k = key
    · subst e
      rw [hself]
      exact hscalar hu
    · rw [hget k e]
      refine hg.scalar k ?_ hu
      simpa [e] using hk
  · by_cases e : k = key
    · subst e
      obtain ⟨u', hu', hcopy⟩ := htable u hu
      exact ⟨u', hself.trans hu', hmono hcopy⟩
    · obtain ⟨u', hu', hcopy⟩ := hg.table k (by simpa [e] using hk) u hu
      exact ⟨u', (hget k e).trans hu', hmono hcopy⟩
  · rw [List.mem_append, List.mem_singleton, not_or] at hk
    rw [hget k hk.2]
    exact hg.rest k hk.1

/-- The calls for the table under a key make a copy, from the fuel `n` on. -/
def Builds (order : Heap → Nat → List Value) (calls : Heap.Calls) (h₀ : Heap) (bare : Prop)
    (w : Nat) (key : Value) (n : Nat) : Prop :=
  ∀ u, h₀.get w key = .table u → ∀ H, Clean h₀ H →
    Settles (Built h₀ bare u H) False (fun fuel => tableCopy order calls fuel u false H) n

/-- A turn of the loop puts the field of its key. -/
theorem Growing.turn {key : Value} {n : Nat} (hg : Growing h₀ bare w B mt met H)
    (hlt : w < h₀.size) (hraw : RawMeta h₀ mt) (hk : h₀.get w key ≠ .nil)
    (hbuilds : Builds order calls h₀ bare w key n) :
    Settles (Growing h₀ bare w B mt (met ++ [key])) False
      (fun fuel => tableCopyField calls (innerCopy order calls fuel) w B.size H key) n := by
  have hget : H.get w key = h₀.get w key := Heap.get_congr (hg.clean.orig w hlt) key
  by_cases hu : ∃ u, h₀.get w key = .table u
  · obtain ⟨u, hu⟩ := hu
    simp only [tableCopyField_table (hget.trans hu)]
    refine (hbuilds u hu H hg.clean).bind fun p hp => ?_
    have hg' := hg.call hp
    rw [setIndex_raw hg'.clean (by rw [hg'.meta_]; exact hraw)]
    refine .ok (hg'.put (fun h => absurd hu (h u)) fun u' hu' => ?_)
    cases hu.symm.trans hu'
    have hsize := hg.size
    exact ⟨p.1, rfl, hp.copy.mono fun x hx => ⟨rfl, Nat.le_trans hsize hx.1, hx.2⟩⟩
  · have hu : ∀ u, h₀.get w key ≠ .table u := fun u e => hu ⟨u, e⟩
    have hn : H.get w key ≠ .nil := by
      rw [hget]
      exact hk
    have hscalar : ∀ u, H.get w key ≠ .table u := by
      rw [hget]
      exact hu
    simp only [tableCopyField_scalar hn hscalar, hget]
    rw [setIndex_raw hg.clean (by rw [hg.meta_]; exact hraw)]
    exact .ok (hg.put (fun _ => rfl) fun u hu' => absurd hu' (hu u))

/-- With all keys met the copy is made. -/
theorem Growing.finish (hg : Growing h₀ bare w B mt met H)
    (hmet : ∀ k, h₀.get w k ≠ .nil → k ∈ met) (hbare : bare → mt = none) :
    Built h₀ bare w B (B.size, H) := by
  refine ⟨Nat.le_of_lt hg.size, hg.frame, .of_fields ⟨Nat.le_refl _, hg.size, fun hb => ?_⟩
    (fun k hk => ?_) fun k u hu => ?_⟩
  · rw [hg.meta_]
    exact hbare hb
  · by_cases hn : h₀.get w k = .nil
    · by_cases hm : k ∈ met
      · exact hg.scalar k hm hk
      · rw [hn]
        exact hg.rest k hm
    · exact hg.scalar k (hmet k hn) hk
  · obtain ⟨u', hu', hcopy⟩ := hg.table k (hmet k (by rw [hu]; exact Value.noConfusion)) u hu
    exact ⟨u', hu', hcopy.mono fun x hx => ⟨rfl, Nat.le_of_succ_le hx.1, hx.2⟩⟩

theorem exists_bound {α : Type*} {P : α → Nat → Prop}
    (hmono : ∀ a n n', n ≤ n' → P a n → P a n') {l : List α} (h : ∀ a ∈ l, ∃ n, P a n) :
    ∃ n, ∀ a ∈ l, P a n := by
  induction l with
  | nil => exact ⟨0, by simp⟩
  | cons a l ih =>
    obtain ⟨n, hn⟩ := h a List.mem_cons_self
    obtain ⟨n', hn'⟩ := ih fun b hb => h b (List.mem_cons_of_mem _ hb)
    refine ⟨max n n', fun b hb => ?_⟩
    rcases List.mem_cons.mp hb with rfl | hb
    · exact hmono _ _ _ (Nat.le_max_left _ _) hn
    · exact hmono _ _ _ (Nat.le_max_right _ _) (hn' b hb)

/-- The metatable that the result has before the loop. -/
def startMeta (h : Heap) (w : Nat) (nometa : Bool) : Option Nat :=
  if nometa then none else (h.getmetatable w).table?

theorem getmetatable_of_startMeta {nometa : Bool} {m : Nat}
    (hm : startMeta h₀ w nometa = some m) :
    nometa = false ∧ h₀.getmetatable w = .table m := by
  cases nometa with
  | true => cases hm
  | false =>
    refine ⟨rfl, ?_⟩
    have hm : (h₀.getmetatable w).table? = some m := hm
    cases e : h₀.getmetatable w <;> rw [e] at hm <;> cases hm
    rfl

/-- The result has a metatable without `__newindex`, if it gets a field. -/
theorem startMeta_raw {nometa : Bool} {key : Value} (hc : h₀.Closed) (hlt : w < h₀.size)
    (hself : nometa = false → Writable h₀ w) (hk : h₀.get w key ≠ .nil) :
    RawMeta h₀ (startMeta h₀ w nometa) := by
  intro m hm
  obtain ⟨hn, hm⟩ := getmetatable_of_startMeta hm
  exact ⟨Heap.getmetatable_lt hc hlt hm, (hself hn).raw.resolve_left (fun h => hk (h key)) m hm⟩

/-- The state that the loop begins in: the result is empty and has its metatable, and all else is
as it was. -/
structure Begun (B : Heap) (w : Nat) (nometa : Bool) (H : Heap) : Prop where
  size : H.size = B.size + 1
  same : ∀ x < B.size, H.table x = B.table x
  empty : ∀ k, H.get B.size k = .nil
  meta_ : H.metatable B.size = startMeta B w nometa
  settable : nometa = false → Settable B w

/-- `table.copy` begins where the metatable can be set. -/
theorem beginCopy_eq {nometa : Bool} (hlt : w < B.size)
    (hm : ∀ m, B.metatable w = some m → m < B.size) :
    (∀ H, beginCopy B w nometa = .ok H → Begun B w nometa H) ∧
      ((nometa = false → Settable B w) → ∃ H, beginCopy B w nometa = .ok H) := by
  have hold : ∀ x < B.size, B.newTable.2.table x = B.table x := fun x hx =>
    Heap.table_newTable_ne _ (Nat.ne_of_lt hx)
  cases nometa with
  | true =>
    refine ⟨fun H h => ?_, fun _ => ⟨_, rfl⟩⟩
    cases h
    exact ⟨rfl, hold, Heap.get_newTable _, Heap.metatable_newTable _, fun h => nomatch h⟩
  | false =>
    have hget : B.newTable.2.getmetatable w = B.getmetatable w :=
      Heap.getmetatable_congr (hold w hlt) fun m e => hold m (hm m e)
    have hset := Heap.setmetatable_of_none (Heap.metatable_newTable B) (B.getmetatable w)
    have hbegin : beginCopy B w false =
        orRaise (B.newTable.2.setmetatable B.size (B.getmetatable w)) := by
      rw [← hget]
      rfl
    rw [hbegin, hset]
    by_cases hs : B.getmetatable w = .nil ∨ (B.getmetatable w).table?.isSome
    · rw [if_pos hs]
      refine ⟨fun H h => ?_, fun _ => ⟨_, rfl⟩⟩
      cases h
      refine ⟨rfl, fun x hx => ?_, fun k => ?_, ?_, fun _ => hs⟩
      · rw [Heap.table_setMeta_ne _ (Nat.ne_of_lt hx)]
        exact hold x hx
      · rw [Heap.get_setMeta]
        exact Heap.get_newTable _ k
      · rw [Heap.metatable_setMeta, if_pos rfl]
        rfl
    · rw [if_neg hs]
      refine ⟨fun H h => ?_, fun h => absurd (h rfl) hs⟩
      cases h

theorem Clean.getmetatable (hcl : Clean h₀ H) (hc : h₀.Closed) (hlt : w < h₀.size) :
    H.getmetatable w = h₀.getmetatable w :=
  Heap.getmetatable_congr (hcl.orig w hlt) fun m hm => hcl.orig m (hc.metatable w m hlt hm)

theorem Clean.metatable_lt (hcl : Clean h₀ H) (hc : h₀.Closed) (hlt : w < h₀.size) {m : Nat}
    (hm : H.metatable w = some m) : m < H.size := by
  rw [Heap.metatable_congr (hcl.orig w hlt)] at hm
  exact Nat.lt_of_lt_of_le (hc.metatable w m hlt hm) hcl.size

/-- The loop begins. -/
theorem Begun.growing {nometa : Bool} (hc : h₀.Closed) (hlt : w < h₀.size) (hcl : Clean h₀ B)
    (hb : Begun B w nometa H) : Growing h₀ bare w B (startMeta h₀ w nometa) [] H := by
  have hsize := hb.size
  have hbase := hcl.size
  refine ⟨⟨by omega, fun x hx => ?_⟩, hbase, by omega, hb.same, ?_, by simp, by simp,
    fun k _ => hb.empty k⟩
  · rw [hb.same x (by omega)]
    exact hcl.orig x hx
  · rw [hb.meta_, startMeta, hcl.getmetatable hc hlt]
    rfl

theorem pairs_clean (hc : h₀.Closed) (hlt : w < h₀.size) (hcl : Clean h₀ H) :
    H.pairs order w = if h₀.metafield w "__pairs" = .nil then some (order H w) else none := by
  rw [Heap.pairs, Heap.metafield_congr (hcl.orig w hlt) fun m hm =>
    hcl.orig m (hc.metatable w m hlt hm)]

/-- `table.copy` of a table within which all are writable makes a copy, from some fuel on. With
`bare`, where they have no metatables, it has none. -/
theorem tableCopy_built (bare : Prop) (horder : ∀ h t, (order h t).Perm (h.table t).keys)
    (hc : h₀.Closed) (hacc : Acc (fun w u => Child h₀ u w) w) :
    ∀ nometa, w < h₀.size → h₀.metafield w "__pairs" = .nil →
      (nometa = false → Writable h₀ w ∧ (bare → h₀.metatable w = none)) →
      (∀ u, TransGen (Child h₀) w u → Writable h₀ u ∧ (bare → h₀.metatable u = none)) →
      ∃ n, ∀ H, Clean h₀ H →
        Settles (Built h₀ bare w H) False (fun fuel => tableCopy order calls fuel w nometa H) n := by
  induction hacc with
  | intro w _ ih =>
    intro nometa hlt hpairs hself hbelow
    -- the calls for the tables in the fields
    have hbuilds : ∃ n, ∀ key ∈ (h₀.table w).keys, Builds order calls h₀ bare w key n := by
      refine exists_bound (fun key n n' hn h u hu H hcl =>
        (h u hu H hcl).mono hn fun _ => id) fun key _ => ?_
      by_cases hu : ∃ u, h₀.get w key = .table u
      · obtain ⟨u, hu⟩ := hu
        have hchild : Child h₀ w u := ⟨key, hu⟩
        have hok := hbelow u (.single hchild)
        obtain ⟨n, hn⟩ := ih u hchild false (hc.field w key u hlt hu) hok.1.plain.pairs
          (fun _ => hok) fun x hx => hbelow x (.head hchild hx)
        refine ⟨n, fun u' hu' H hcl => ?_⟩
        cases hu.symm.trans hu'
        exact hn H hcl
      · exact ⟨0, fun u hu' => absurd ⟨u, hu'⟩ hu⟩
    obtain ⟨n, hbuilds⟩ := hbuilds
    refine ⟨n + 1, fun B hcl => Settles.succ ?_⟩
    obtain ⟨hbegun, hbegins⟩ := beginCopy_eq (Nat.lt_of_lt_of_le hlt hcl.size)
      fun m => hcl.metatable_lt hc hlt
    obtain ⟨H, hH⟩ := hbegins fun h => by
      rw [Settable, hcl.getmetatable hc hlt]
      exact (hself h).1.plain.settable
    have hg : Growing h₀ bare w B (startMeta h₀ w nometa) [] H :=
      (hbegun H hH).growing hc hlt hcl
    simp only [tableCopy_succ, hH]
    refine Settles.bind (P := fun H' => H = H') (.ok rfl) ?_
    rintro _ rfl
    -- the keys
    rw [pairs_clean hc hlt hg.clean, if_pos hpairs]
    have hperm : (order H w).Perm (h₀.table w).keys := by
      rw [← hg.clean.orig w hlt]
      exact horder H w
    have hkey : ∀ key, key ∈ order H w ↔ h₀.get w key ≠ .nil := fun key =>
      hperm.mem_iff.trans Table.mem_keys
    refine Settles.bind (P := fun keys => order H w = keys) (.ok rfl) ?_
    rintro _ rfl
    refine Settles.bind (P := Growing h₀ bare w B (startMeta h₀ w nometa) (order H w)) ?_ ?_
    · refine Settles.foldlM_met (P := Growing h₀ bare w B (startMeta h₀ w nometa)) ?_ hg
      intro met key l H' hmet hg'
      have hk : h₀.get w key ≠ .nil := (hkey key).mp (by rw [hmet]; simp)
      have hraw := startMeta_raw hc hlt (fun h => (hself h).1) hk
      exact hg'.turn hlt hraw hk (hbuilds key (Table.mem_keys.mpr hk))
    · intro H' hg'
      refine .ok (hg'.finish (fun key hk => (hkey key).mpr hk) fun hb => ?_)
      cases e : startMeta h₀ w nometa with
      | none => rfl
      | some m =>
        obtain ⟨hn, hm⟩ := getmetatable_of_startMeta e
        rw [Heap.getmetatable_of_none ((hself hn).2 hb)] at hm
        cases hm

end

end SkynetHotfix.Luaext
