import Mathlib.Data.List.AList
import Mathlib.Logic.Function.Basic

/-!
# The Lua heap

Tables, closures and the cells that closures share, as far as the hotfix
modules look at them: `debug.getupvalue` and `debug.setupvalue` are reads and
writes of cells, `t[k]` goes by the metatables (`walk`).

Floats are left out of the numbers, and a metamethod that is a function (or
anything else but a table) is code of its own: `walk` stops at it with an
error.
-/

namespace SkynetHotfix.Lua

open Function (update)

/-- Values; tables, closures and the like by their identity. -/
inductive Value
  | nil
  | bool (b : Bool)
  | num (n : Int)
  | str (s : String)
  | table (id : Nat)
  | func (id : Nat)
  | userdata (id : Nat)
  | thread (id : Nat)
deriving DecidableEq

inductive Ty
  | nil | boolean | number | string | table | function | userdata | thread
deriving DecidableEq

/-- `type(v)` -/
def Value.type : Value → Ty
  | nil => .nil
  | bool _ => .boolean
  | num _ => .number
  | str _ => .string
  | table _ => .table
  | func _ => .function
  | userdata _ => .userdata
  | thread _ => .thread

/-- `if v then` -/
def Value.truthy : Value → Bool
  | nil => false
  | bool b => b
  | _ => true

/-- A table: its raw fields, none of which is `nil`, and its metatable. -/
structure Table where
  fields : AList fun _ : Value => Value
  metatable : Option Nat
  nonnil : ∀ k, .nil ∉ fields.lookup k

namespace Table

def empty : Table := ⟨∅, none, by simp⟩

/-- `rawget(t, k)` -/
def get (t : Table) (k : Value) : Value := (t.fields.lookup k).getD .nil

/-- `rawset(t, k, v)` -/
def set (t : Table) (k v : Value) : Table :=
  if h : v = .nil then
    { t with
      fields := t.fields.erase k
      nonnil := fun k' => by
        by_cases e : k' = k
        · subst e; simp
        · rw [AList.lookup_erase_ne e]; exact t.nonnil k' }
  else
    { t with
      fields := t.fields.insert k v
      nonnil := fun k' => by
        by_cases e : k' = k
        · subst e
          rw [AList.lookup_insert]
          exact fun hm => h (Option.some.inj hm)
        · rw [AList.lookup_insert_ne e]; exact t.nonnil k' }

def keys (t : Table) : List Value := t.fields.keys

theorem get_set (t : Table) (k k' v : Value) :
    (t.set k v).get k' = if k' = k then v else t.get k' := by
  by_cases h : v = .nil
  · by_cases e : k' = k
    · subst e; simp [get, set, h]
    · simp [get, set, h, e]
  · by_cases e : k' = k
    · subst e; simp [get, set, h]
    · simp [get, set, h, e]

@[simp] theorem metatable_set (t : Table) (k v : Value) : (t.set k v).metatable = t.metatable := by
  unfold set; split <;> rfl

theorem mem_keys {t : Table} {k : Value} : k ∈ t.keys ↔ t.get k ≠ .nil := by
  rw [keys, ← AList.mem_keys, ← AList.lookup_isSome, get]
  cases h : t.fields.lookup k with
  | none => simp
  | some v =>
    have := t.nonnil k
    rw [h] at this
    simpa [eq_comm] using this

end Table

/-- The tables, numbered below `size`, the upvalues of the closures by name, with the cell that
holds each, and the cells. -/
structure Heap where
  size : Nat
  table : Nat → Table
  closure : Nat → List (String × Nat)
  cell : Nat → Value

namespace Heap

/-- `rawget` -/
def get (h : Heap) (t : Nat) (k : Value) : Value := (h.table t).get k

/-- `rawset` -/
def set (h : Heap) (t : Nat) (k v : Value) : Heap :=
  { h with table := update h.table t ((h.table t).set k v) }

/-- `debug.getmetatable` -/
def metatable (h : Heap) (t : Nat) : Option Nat := (h.table t).metatable

/-- `debug.setupvalue`, by the cell of the upvalue. -/
def setCell (h : Heap) (c : Nat) (v : Value) : Heap := { h with cell := update h.cell c v }

/-- The table at which `t[k]` comes to an end for the metamethod `event`: it has a field `k`, or
no such metamethod. `none` where the chain is longer than `hops` or leaves the tables. -/
def walk (h : Heap) (event : String) (hops : Nat) (t : Nat) (k : Value) : Option Nat :=
  if h.get t k ≠ .nil then some t
  else
    match hops with
    | 0 => none
    | hops + 1 =>
      match h.metatable t with
      | none => some t
      | some m =>
        match h.get m (.str event) with
        | .nil => some t
        | .table p => h.walk event hops p k
        | _ => none

/-- `MAXTAGLOOP` -/
def maxHops : Nat := 2000

/-- `t[k]`; `none` where it raises. -/
def index (h : Heap) (t : Nat) (k : Value) : Option Value :=
  (h.walk "__index" maxHops t k).map fun p => h.get p k

/-- `t[k] = v`; `none` where it raises. -/
def newindex (h : Heap) (t : Nat) (k v : Value) : Option Heap :=
  (h.walk "__newindex" maxHops t k).map fun p => h.set p k v

/-- A field that is there is found without the metatables. -/
theorem walk_of_get {h : Heap} {t : Nat} {k : Value} (hk : h.get t k ≠ .nil) (event : String)
    (hops : Nat) : h.walk event hops t k = some t := by
  cases hops <;> rw [walk, if_pos hk]

theorem index_of_get {h : Heap} {t : Nat} {k : Value} (hk : h.get t k ≠ .nil) :
    h.index t k = some (h.get t k) := by
  rw [index, walk_of_get hk, Option.map_some]

theorem get_set (h : Heap) (t t' : Nat) (k k' v : Value) :
    (h.set t k v).get t' k' = if t' = t ∧ k' = k then v else h.get t' k' := by
  by_cases e : t' = t
  · subst e; simp [get, set, Table.get_set]
  · simp [get, set, e]

@[simp] theorem metatable_set (h : Heap) (t t' : Nat) (k v : Value) :
    (h.set t k v).metatable t' = h.metatable t' := by
  by_cases e : t' = t
  · subst e; simp [metatable, set]
  · simp [metatable, set, e]

@[simp] theorem closure_set (h : Heap) (t : Nat) (k v : Value) :
    (h.set t k v).closure = h.closure := rfl

@[simp] theorem cell_set (h : Heap) (t : Nat) (k v : Value) : (h.set t k v).cell = h.cell := rfl

@[simp] theorem get_setCell (h : Heap) (c : Nat) (v : Value) (t : Nat) (k : Value) :
    (h.setCell c v).get t k = h.get t k := rfl

@[simp] theorem metatable_setCell (h : Heap) (c : Nat) (v : Value) (t : Nat) :
    (h.setCell c v).metatable t = h.metatable t := rfl

@[simp] theorem closure_setCell (h : Heap) (c : Nat) (v : Value) :
    (h.setCell c v).closure = h.closure := rfl

theorem cell_setCell (h : Heap) (c c' : Nat) (v : Value) :
    (h.setCell c v).cell c' = if c' = c then v else h.cell c' := by
  by_cases e : c' = c
  · subst e; simp [setCell]
  · simp [setCell, e]

end Heap

end SkynetHotfix.Lua
