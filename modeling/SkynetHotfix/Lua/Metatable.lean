import SkynetHotfix.Lua.Heap

/-!
# Metatables, new tables and `pairs`

`getmetatable` and `setmetatable` go by the field `__metatable`, and `pairs`
by `__pairs`, which is code of its own. `setIndex` is the assignment `t[k] = v`
where the functions that are called as `__newindex` can do anything; `newindex`
is that where each raises.
-/

namespace SkynetHotfix.Lua

open Function (update)

/-- The table that a value is. -/
def Value.table? : Value → Option Nat
  | .table t => some t
  | _ => none

namespace Heap

/-- The field `event` of the metatable. -/
def metafield (h : Heap) (t : Nat) (event : String) : Value :=
  match h.metatable t with
  | none => .nil
  | some m => h.get m (.str event)

/-- A chain goes by the metamethods. -/
theorem walk_succ (h : Heap) (event : String) (hops t : Nat) (k : Value) :
    h.walk event (hops + 1) t k =
      if h.get t k ≠ .nil then some t
      else
        match h.metafield t event with
        | .nil => some t
        | .table p => h.walk event hops p k
        | _ => none := by
  rw [walk, metafield]
  cases h.metatable t <;> rfl

/-- `getmetatable` -/
def getmetatable (h : Heap) (t : Nat) : Value :=
  match h.metatable t with
  | none => .nil
  | some m =>
    match h.get m (.str "__metatable") with
    | .nil => .table m
    | v => v

/-- `debug.setmetatable` -/
def setMeta (h : Heap) (t : Nat) (m : Option Nat) : Heap :=
  { h with table := update h.table t { h.table t with metatable := m } }

/-- `setmetatable`; `none` where it raises. -/
def setmetatable (h : Heap) (t : Nat) (v : Value) : Option Heap :=
  if h.metafield t "__metatable" ≠ .nil then none
  else
    match v with
    | .nil => some (h.setMeta t none)
    | .table m => some (h.setMeta t (some m))
    | _ => none

/-- `{}` -/
def newTable (h : Heap) : Nat × Heap :=
  (h.size, { h with size := h.size + 1, table := update h.table h.size .empty })

/-- The keys that `pairs` goes through, which it meets in the order `order`; `none` where
`__pairs` is called. -/
def pairs (order : Heap → Nat → List Value) (h : Heap) (t : Nat) : Option (List Value) :=
  if h.metafield t "__pairs" = .nil then some (order h t) else none

/-- What the functions do that are called as `__newindex`, with a table, a key and a value; `none`
where one raises. -/
abbrev Calls := Nat → Heap → Nat → Value → Value → Option Heap

/-- `t[k] = v` over at most `hops` tables. -/
def assign (call : Calls) (h : Heap) (hops t : Nat) (k v : Value) : Option Heap :=
  if h.get t k ≠ .nil then some (h.set t k v)
  else
    match hops with
    | 0 => none
    | hops + 1 =>
      match h.metatable t with
      | none => some (h.set t k v)
      | some m =>
        match h.get m (.str "__newindex") with
        | .nil => some (h.set t k v)
        | .table p => h.assign call hops p k v
        | .func f => call f h t k v
        | _ => none

/-- `t[k] = v`; `none` where it raises. -/
def setIndex (call : Calls) (h : Heap) (t : Nat) (k v : Value) : Option Heap :=
  h.assign call maxHops t k v

/-- Each function raises. -/
def raises : Calls := fun _ _ _ _ _ => none

theorem assign_raises (h : Heap) (hops t : Nat) (k v : Value) :
    h.assign raises hops t k v =
      (h.walk "__newindex" hops t k).map fun p => h.set p k v := by
  induction hops generalizing t with
  | zero =>
    rw [assign, walk]
    split <;> rfl
  | succ hops ih =>
    rw [assign, walk]
    split
    · rfl
    cases h.metatable t with
    | none => rfl
    | some m =>
      simp only
      cases h.get m (.str "__newindex") with
      | table p => exact ih p
      | _ => rfl

theorem setIndex_raises (h : Heap) (t : Nat) (k v : Value) :
    h.setIndex raises t k v = h.newindex t k v :=
  assign_raises h maxHops t k v

/-- Every table that is referred to is there. -/
structure Closed (h : Heap) : Prop where
  field : ∀ t k u, t < h.size → h.get t k = .table u → u < h.size
  key : ∀ t u, t < h.size → h.get t (.table u) ≠ .nil → u < h.size
  metatable : ∀ t m, t < h.size → h.metatable t = some m → m < h.size

theorem get_setMeta (h : Heap) (t t' : Nat) (m : Option Nat) (k : Value) :
    (h.setMeta t m).get t' k = h.get t' k := by
  by_cases e : t' = t
  · subst e; simp [get, setMeta, Table.get]
  · simp [get, setMeta, e]

theorem metatable_setMeta (h : Heap) (t t' : Nat) (m : Option Nat) :
    (h.setMeta t m).metatable t' = if t' = t then m else h.metatable t' := by
  by_cases e : t' = t
  · subst e; simp [metatable, setMeta]
  · simp [metatable, setMeta, e]

theorem table_set_ne (h : Heap) {t t' : Nat} (e : t' ≠ t) (k v : Value) :
    (h.set t k v).table t' = h.table t' := by
  simp [set, e]

theorem table_setMeta_ne (h : Heap) {t t' : Nat} (e : t' ≠ t) (m : Option Nat) :
    (h.setMeta t m).table t' = h.table t' := by
  simp [setMeta, e]

theorem table_newTable_ne (h : Heap) {t : Nat} (e : t ≠ h.size) :
    h.newTable.2.table t = h.table t := by
  simp [newTable, e]

@[simp] theorem get_newTable (h : Heap) (k : Value) : h.newTable.2.get h.size k = .nil := by
  simp [newTable, get, Table.get, Table.empty]

@[simp] theorem metatable_newTable (h : Heap) : h.newTable.2.metatable h.size = none := by
  simp [newTable, metatable, Table.empty]

/-- What is read of two heaps in which a table is the same. -/
theorem get_congr {h h' : Heap} {t : Nat} (e : h'.table t = h.table t) (k : Value) :
    h'.get t k = h.get t k := by
  rw [get, e, get]

theorem metatable_congr {h h' : Heap} {t : Nat} (e : h'.table t = h.table t) :
    h'.metatable t = h.metatable t := by
  rw [metatable, e, metatable]

theorem metafield_congr {h h' : Heap} {t : Nat} (e : h'.table t = h.table t)
    (em : ∀ m, h.metatable t = some m → h'.table m = h.table m) (event : String) :
    h'.metafield t event = h.metafield t event := by
  rw [metafield, metatable_congr e, metafield]
  split
  · rfl
  · rename_i m hm
    exact get_congr (em m hm) _

theorem getmetatable_congr {h h' : Heap} {t : Nat} (e : h'.table t = h.table t)
    (em : ∀ m, h.metatable t = some m → h'.table m = h.table m) :
    h'.getmetatable t = h.getmetatable t := by
  rw [getmetatable, metatable_congr e, getmetatable]
  split
  · rfl
  · rename_i m hm
    rw [get_congr (em m hm)]

theorem getmetatable_of_none {h : Heap} {t : Nat} (ht : h.metatable t = none) :
    h.getmetatable t = .nil := by
  rw [getmetatable, ht]

theorem getmetatable_eq_nil {h : Heap} {t : Nat} (ht : h.getmetatable t = .nil) :
    h.metatable t = none := by
  unfold getmetatable at ht
  cases hm : h.metatable t with
  | none => rfl
  | some m =>
    rw [hm] at ht
    simp only at ht
    split at ht
    · cases ht
    · rename_i hn
      exact absurd ht hn

/-- What `getmetatable` gives is there. -/
theorem getmetatable_lt {h : Heap} (hc : h.Closed) {t m : Nat} (ht : t < h.size)
    (hm : h.getmetatable t = .table m) : m < h.size := by
  unfold getmetatable at hm
  cases e : h.metatable t with
  | none =>
    rw [e] at hm
    cases hm
  | some m' =>
    rw [e] at hm
    have hlt := hc.metatable t m' ht e
    simp only at hm
    split at hm
    · cases hm
      exact hlt
    · exact hc.field m' _ m hlt hm

/-- A table that has no metatable takes any table for one, or none. -/
theorem setmetatable_of_none {h : Heap} {t : Nat} (ht : h.metatable t = none) (v : Value) :
    h.setmetatable t v =
      if v = .nil ∨ v.table?.isSome then some (h.setMeta t v.table?) else none := by
  have hp : h.metafield t "__metatable" = .nil := by
    rw [metafield, ht]
  unfold setmetatable
  rw [if_neg fun hn => hn hp]
  cases v <;> simp [Value.table?]

/-- A chain ends at a table that has no metatable. -/
theorem walk_of_none {h : Heap} {t : Nat} (ht : h.metatable t = none) (event : String) (k : Value) :
    h.walk event maxHops t k = some t := by
  rw [maxHops, walk]
  by_cases hk : h.get t k ≠ .nil
  · rw [if_pos hk]
  · rw [if_neg hk, ht]

theorem index_of_none {h : Heap} {t : Nat} (ht : h.metatable t = none) (k : Value) :
    h.index t k = some (h.get t k) := by
  rw [index, walk_of_none ht, Option.map_some]

/-- Assignment to a table that has no metatable is raw. -/
theorem newindex_of_none {h : Heap} {t : Nat} (ht : h.metatable t = none) (k v : Value) :
    h.newindex t k v = some (h.set t k v) := by
  rw [newindex, walk_of_none ht, Option.map_some]

end Heap

end SkynetHotfix.Lua
