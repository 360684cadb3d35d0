import SkynetHotfix.ModuleUpdater.Basic

/-!
# Updates that call no code

The module updater where no code of the service runs on the way: two tables are
the same if they are one, `pairs` goes through the fields, `old_table[key]` and
`old_table[key] = value` follow tables, `tostring` gives a text (`Env.text`), and
nobody hears the log. `update_table` and `update_func` are the same bodies
otherwise.
-/

namespace SkynetHotfix.RawUpdater

open Lua
open ModuleUpdater (State Check Answer oldUpvalue findFunc metaName)

/-- A call of `update_func` or of `update_table`. -/
inductive Task
  | func (new_func old_func : Nat)
  | table (new_table old_table : Nat) (name : Value)
deriving DecidableEq

/-- The new object of a call, and the old one. -/
def Task.objs : Task → Value × Value
  | .func new_func old_func => (.func new_func, .func old_func)
  | .table new_table old_table _ => (.table new_table, .table old_table)

/-- What an update finds: `protected`, the table `package.loaded`, the order in which `pairs` meets
the keys of a table, and the text of an object. -/
structure Env where
  protected_ : Value → Bool
  loaded : Nat
  order : Heap → Nat → List Value
  order_perm : ∀ h t, (order h t).Perm (h.table t).keys
  text : Heap → Value → String

/-- The key of `updated_sig`. -/
def Env.signature (env : Env) (h : Heap) (new_obj old_obj : Value) : String :=
  "new(" ++ env.text h new_obj ++ ") old(" ++ env.text h old_obj ++ ")"

def raise : Result State := .error (some ())

/-- `check_updated`; `true` if there is nothing to update. -/
def checkUpdated (env : Env) (new_obj old_obj : Value) (st : State) : State × Bool :=
  let signature := env.signature st.heap new_obj old_obj
  let log answer := st.log ++ [⟨new_obj, old_obj, signature, answer⟩]
  if new_obj = old_obj then ({ st with log := log .same }, true)
  else if signature ∈ st.updated_sig then ({ st with log := log .already }, true)
  else ({ st with updated_sig := signature :: st.updated_sig, log := log .fresh }, false)

/-- One upvalue of the new function: the body of the second loop of `update_func`. -/
def updateUpvalue (rec : Task → State → Result State) (old_upvalue_map : List (String × Value))
    (st : State) (upvalue : String × Nat) : Result State :=
  let value := st.heap.cell upvalue.2
  let old_value := oldUpvalue old_upvalue_map upvalue.1
  let setupvalue (st : State) := { st with heap := st.heap.setCell upvalue.2 old_value }
  if old_value.truthy then
    if old_value.type ≠ value.type then .ok (setupvalue st)
    else
      match old_value, value with
      | .func old_func, .func new_func => rec (.func new_func old_func) st
      | .table old_table, .table new_table => do
        let st ← rec (.table new_table old_table (.str upvalue.1)) st
        .ok (setupvalue st)
      | _, _ => .ok (setupvalue st)
  else .ok st

/-- `update_func` -/
def updateFunc (env : Env) (rec : Task → State → Result State) (new_func old_func : Nat)
    (st : State) : Result State :=
  if env.protected_ (.func old_func) then .ok st
  else
    match checkUpdated env (.func new_func) (.func old_func) st with
    | (st, true) => .ok st
    | (st, false) =>
      let st := st.record old_func new_func
      let old_upvalue_map := (st.heap.closure old_func).map fun u => (u.1, st.heap.cell u.2)
      (st.heap.closure new_func).foldlM (updateUpvalue rec old_upvalue_map) st

/-- One field of the new table: the body of the loop of `update_table`. -/
def updateField (rec : Task → State → Result State) (new_table old_table : Nat) (st : State)
    (key : Value) : Result State :=
  let value := st.heap.get new_table key
  -- `pairs` does not meet a field that is gone.
  if value = .nil then .ok st
  else
    match st.heap.index old_table key with
    | none => raise
    | some old_value =>
      if value.type ≠ old_value.type then
        match st.heap.newindex old_table key value with
        | none => raise
        | some heap => .ok { st with heap }
      else
        match value, old_value with
        | .func new_func, .func old_func => rec (.func new_func old_func) st
        | .table new_table, .table old_table => rec (.table new_table old_table key) st
        | _, _ => .ok st

/-- The end of `update_table`. -/
def updateMeta (rec : Task → State → Result State) (new_table old_table : Nat) (name : Value)
    (st : State) : Result State :=
  match st.heap.metatable old_table, st.heap.metatable new_table with
  | some old_meta, some new_meta =>
    match metaName name with
    | none => raise
    | some name => rec (.table new_meta old_meta name) st
  | _, _ => .ok st

/-- `update_table` from where the check is passed. -/
def updateFields (env : Env) (rec : Task → State → Result State) (new_table old_table : Nat)
    (name : Value) (st : State) : Result State := do
  let st ← (env.order st.heap new_table).foldlM (updateField rec new_table old_table) st
  updateMeta rec new_table old_table name st

/-- `update_table` -/
def updateTable (env : Env) (rec : Task → State → Result State) (new_table old_table : Nat)
    (name : Value) (st : State) : Result State :=
  if env.protected_ (.table old_table) then .ok st
  else
    match findFunc name with
    | none => raise
    | some true => updateFields env rec new_table old_table name st
    | some false =>
      match checkUpdated env (.table new_table) (.table old_table) st with
      | (st, true) => .ok st
      | (st, false) => updateFields env rec new_table old_table name st

/-- `update_func` and `update_table`. -/
def body (env : Env) (rec : Task → State → Result State) : Task → State → Result State
  | .func new_func old_func => updateFunc env rec new_func old_func
  | .table new_table old_table name => updateTable env rec new_table old_table name

/-- The call that compares the new object with what is loaded; none where they are not of one
type, or of no type that is compared. -/
def firstTask (env : Env) (module_name : String) (new_obj : Value) (heap : Heap) : Option Task :=
  match new_obj, heap.index env.loaded (.str module_name) with
  | .table new_table, some (.table old_table) => some (.table new_table old_table (.str module_name))
  | .func new_func, some (.func old_func) => some (.func new_func old_func)
  | _, _ => none

end SkynetHotfix.RawUpdater
