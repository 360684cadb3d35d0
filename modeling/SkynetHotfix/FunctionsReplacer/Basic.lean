import SkynetHotfix.Lua.Runtime

/-!
# The functions replacer

`common/hotfix/internal/functions_replacer.lua`: `replace_functions` goes
through the objects it can come to and puts the new functions in the place of
the old. It is a body that calls `rec` (`replace_functions`), tied by
`Fuel.run`.

Metamethods of the objects run on the way: `__eq`, since each object is compared
with the table `updated_func_map`, `__pairs`, and `__newindex`. They may write to
the heap and raise; the variables of the module they do not reach. That table is
an object of the heap only by its identity, `Env.func_map`: what it maps is kept
apart.
-/

namespace SkynetHotfix.FunctionsReplacer

open Lua

/-- What a replacement finds: `protected`, the order in which `pairs` meets the keys of `new`, `_G`,
`debug.getregistry()`, and the table `updated_func_map`. Loops over what a `__pairs` returns have at
most `turns` turns. -/
structure Env extends Runtime where
  protected_ : Value → Bool
  orderNew : (AList fun _ : Nat => Value) → List Nat
  orderNew_perm : ∀ new, (orderNew new).Perm new.keys
  globals : Nat
  registry : Nat
  func_map : Nat
  turns : Nat

/-- The heap, and the variable of the module. -/
structure State where
  heap : Heap
  replaced_obj : List Value

/-- `updated_func_map`, and the variable `new`. -/
abbrev FuncMap := AList fun _ : Nat => Nat
abbrev New := AList fun _ : Nat => Value

/-- `updated_func_map[v]` -/
def newVersion (updated_func_map : FuncMap) : Value → Option Nat
  | .func old_func => updated_func_map.lookup old_func
  | _ => none

/-- `updated_func_map[v] or v` -/
def renew (updated_func_map : FuncMap) (v : Value) : Value :=
  match newVersion updated_func_map v with
  | some new_v => .func new_v
  | none => v

/-- `replaced_obj[obj] = true` -/
def State.mark (st : State) (obj : Value) : State :=
  { st with replaced_obj := obj :: st.replaced_obj }

/-- `assert(obj ~= updated_func_map)` -/
def assertOther (env : Env) (obj : Value) (st : State) : Result State := do
  let (same, heap) ← env.eq obj (.table env.func_map) st.heap
  if same then .error (some ()) else .ok { st with heap }

/-- One upvalue: the body of the loop of `replace_functions_in_upvalues`. -/
def replaceUpvalue (updated_func_map : FuncMap) (rec : Value → State → Result State) (st : State)
    (upvalue : String × Nat) : Result State :=
  let value := st.heap.cell upvalue.2
  match newVersion updated_func_map value with
  | some new_func => .ok { st with heap := st.heap.setCell upvalue.2 (.func new_func) }
  | none => rec value st

/-- `replace_functions_in_upvalues` -/
def replaceFunctionsInUpvalues (env : Env) (updated_func_map : FuncMap)
    (rec : Value → State → Result State) (obj : Nat) (st : State) : Result State := do
  let st ← assertOther env (.func obj) st
  (st.heap.closure obj).foldlM (replaceUpvalue updated_func_map rec) st

/-- The value of a field, if it is no old function. -/
def replaceValue (updated_func_map : FuncMap) (rec : Value → State → Result State) (v : Value)
    (acc : State × New) : Result (State × New) :=
  match newVersion updated_func_map v with
  | some _ => .ok acc
  | none => do
    let st ← rec v acc.1
    .ok (st, acc.2)

/-- One field: the body of the first loop of `replace_functions_in_table`. -/
def replaceField (env : Env) (updated_func_map : FuncMap) (rec : Value → State → Result State)
    (obj : Nat) (k v : Value) (acc : State × New) : Result (State × New) := do
  let (st, new) := acc
  let acc ← match newVersion updated_func_map k with
    | some new_k => do
      let heap ← env.newindex Heap.maxHops obj k .nil st.heap
      .ok ({ st with heap }, new.insert new_k (renew updated_func_map v))
    | none => do
      let heap ← env.newindex Heap.maxHops obj k (renew updated_func_map v) st.heap
      let st ← rec k { st with heap }
      .ok (st, new)
  replaceValue updated_func_map rec v acc

/-- One field of `new`: the body of the second loop. -/
def assignNew (env : Env) (obj : Nat) (new : New) (st : State) (k : Nat) : Result State :=
  match new.lookup k with
  | none => .ok st
  | some v => do
    let heap ← env.newindex Heap.maxHops obj (.func k) v st.heap
    .ok { st with heap }

/-- `replace_functions_in_table` -/
def replaceFunctionsInTable (env : Env) (updated_func_map : FuncMap)
    (rec : Value → State → Result State) (obj : Nat) (st : State) : Result State := do
  let st ← assertOther env (.table obj) st
  let st ← rec (((st.heap.metatable obj).map Value.table).getD .nil) st
  let (st, new) ← env.forPairs (fun acc => acc.1.heap)
    (fun acc heap => ({ acc.1 with heap }, acc.2)) env.turns obj
    (replaceField env updated_func_map rec obj) (st, ∅)
  (env.orderNew new).foldlM (assignNew env obj new) st

/-- `replace_functions` -/
def body (env : Env) (updated_func_map : FuncMap) (rec : Value → State → Result State)
    (obj : Value) (st : State) : Result State :=
  if env.protected_ obj then .ok st
  else
    match obj with
    | .func f =>
      if obj ∈ st.replaced_obj then .ok st
      else do
        let st ← assertOther env obj (st.mark obj)
        replaceFunctionsInUpvalues env updated_func_map rec f st
    | .table t =>
      if obj ∈ st.replaced_obj then .ok st
      else do
        let st ← assertOther env obj (st.mark obj)
        replaceFunctionsInTable env updated_func_map rec t st
    | _ => .ok st

/-- `replace_all`, with calls nested to a depth of `fuel`. -/
def replaceAll (env : Env) (fuel : Nat) (updated_func_map : FuncMap) (new_obj : Value)
    (heap : Heap) : Result Heap :=
  let replace := Fuel.run (body env updated_func_map) fuel
  if updated_func_map.keys = [] then .ok heap
  else do
    let st ← replace new_obj ⟨heap, []⟩
    let st ← replace (.table env.globals) st
    let st ← replace (.table env.registry) st
    .ok st.heap

end SkynetHotfix.FunctionsReplacer
