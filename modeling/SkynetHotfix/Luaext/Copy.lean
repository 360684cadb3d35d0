import SkynetHotfix.Lib.Fuel
import SkynetHotfix.Lua.Metatable

/-!
# Copies of tables

`clone`, `table.copy` and `table.deepcopy` of `common/base/luaext.lua`. The
inner `_copy` of `clone` is that of `table.deepcopy` without `nometa`
(`deepCopy`). It fills in `lookup_table` before it goes into a table, and sets
the metatable when the fields are there; `table.copy` sets it first, so that
its assignments go by `__newindex`.
-/

namespace SkynetHotfix.Luaext

open Lua

/-- A call that may raise or lack fuel. -/
abbrev Result := Fuel.Result Unit

/-- What raises where there is no value. -/
def orRaise {α : Type} : Option α → Result α
  | none => .error (some ())
  | some a => .ok a

/-- The heap, and `lookup_table`. -/
structure Copying where
  heap : Heap
  lookup_table : List (Nat × Nat)

section

variable (order : Heap → Nat → List Value)

/-- One field: `new_table[_copy(index)] = _copy(value)`. -/
def copyField (copy : Value → Copying → Result (Value × Copying)) (t new_table : Nat)
    (st : Copying) (index : Value) : Result Copying := do
  let value := st.heap.get t index
  -- `pairs` does not meet a field that is gone.
  if value = .nil then .ok st
  else
    let (index, st) ← copy index st
    let (value, st) ← copy value st
    let heap ← orRaise (st.heap.newindex new_table index value)
    .ok { st with heap }

/-- `_copy(t, nometa)` of a table that is not in `lookup_table`. -/
def copyNew (copy : Value → Copying → Result (Value × Copying)) (t : Nat) (nometa : Bool)
    (st : Copying) : Result (Value × Copying) := do
  let (new_table, heap) := st.heap.newTable
  let st : Copying := ⟨heap, (t, new_table) :: st.lookup_table⟩
  let keys ← orRaise (st.heap.pairs order t)
  let st ← keys.foldlM (copyField copy t new_table) st
  if nometa then .ok (.table new_table, st)
  else do
    let heap ← orRaise (st.heap.setmetatable new_table (st.heap.getmetatable t))
    .ok (.table new_table, { st with heap })

/-- `_copy(t, nometa)`, with calls nested to a depth of `fuel`; the calls in it have no `nometa`. -/
def deepCopy : Nat → Value → Bool → Copying → Result (Value × Copying)
  | 0, _, _, _ => .error none
  | fuel + 1, v, nometa, st =>
    match v with
    | .table t =>
      match st.lookup_table.lookup t with
      | some new_table => .ok (.table new_table, st)
      | none => copyNew order (fun v st => deepCopy fuel v false st) t nometa st
    | v => .ok (v, st)

/-- `clone(object)` -/
def clone (fuel : Nat) (object : Value) (h : Heap) : Result (Value × Heap) := do
  let (copy, st) ← deepCopy order fuel object false ⟨h, []⟩
  .ok (copy, st.heap)

/-- `table.deepcopy(t, nometa)`, which calls `_copy(t)`. -/
def tableDeepcopy (fuel : Nat) (t : Value) (_nometa : Bool) (h : Heap) :
    Result (Value × Heap) := do
  let (copy, st) ← deepCopy order fuel t false ⟨h, []⟩
  .ok (copy, st.heap)

/-- One field of `table.copy`: `result[k] = table.copy(v)`, or `result[k] = v`; `call` is what the
functions in `__newindex` do. -/
def tableCopyField (call : Heap.Calls) (copy : Nat → Heap → Result (Nat × Heap)) (t result : Nat)
    (h : Heap) (k : Value) : Result Heap :=
  match h.get t k with
  -- `pairs` does not meet a field that is gone.
  | .nil => .ok h
  | .table u => do
    let (u', h) ← copy u h
    orRaise (h.setIndex call result k (.table u'))
  | v => orRaise (h.setIndex call result k v)

/-- `table.copy(t, nometa)`, with calls nested to a depth of `fuel`; the calls in it have no
`nometa`. -/
def tableCopy (call : Heap.Calls) : Nat → Nat → Bool → Heap → Result (Nat × Heap)
  | 0, _, _, _ => .error none
  | fuel + 1, t, nometa, h => do
    let (result, h) := h.newTable
    let h ← if nometa then .ok h else orRaise (h.setmetatable result (h.getmetatable t))
    let keys ← orRaise (h.pairs order t)
    let h ← keys.foldlM (tableCopyField call (fun u h => tableCopy call fuel u false h) t result) h
    .ok (result, h)

end

end SkynetHotfix.Luaext
