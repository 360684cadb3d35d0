import Mathlib.Data.List.Infix
import SkynetHotfix.Lua.Runtime

/-!
# The module updater

`common/hotfix/internal/module_updater.lua`: `update_table` and `update_func`
call each other over the new and the old version of a module; here they are
bodies that call `rec` (`update`), tied by `Fuel.run`.

Code of the service runs on the way: `tostring`, which is the one in force,
`M.log_debug`, which the service sets, and the metamethods of the tables that
are compared (`__eq`, `__pairs`, `__index`, `__newindex`). It may write to the
heap and raise; the variables of the module it does not reach, that is, it
starts no hotfix of its own. A closure keeps the cells of its upvalues
(`debug.upvaluejoin` is left out).

The set of what has been updated is keyed by the text of the two objects. The
checks are kept in `log`, which the code does not have.
-/

namespace SkynetHotfix.ModuleUpdater

open Lua

/-- A call of `update_func` or of `update_table`; `name` and `deep` are for the log, but for the
name of a table. -/
inductive Task
  | func (new_func old_func : Nat) (name : Value) (deep : String)
  | table (new_table old_table : Nat) (name : Value) (deep : String)

/-- How `check_updated` ends. -/
inductive Answer
  | same | already | fresh
deriving DecidableEq

structure Check where
  new_obj : Value
  old_obj : Value
  signature : String
  answer : Answer
deriving DecidableEq

/-- The heap, the variables of the module, and the checks that were made. -/
structure State where
  heap : Heap
  updated_sig : List String
  updated_func_map : AList fun _ : Nat => Nat
  log : List Check

/-- What an update finds: `protected`, the table `package.loaded`, the table `M` of the module, and
`tostring`. Loops over what a `__pairs` returns have at most `turns` turns. -/
structure Env extends Runtime where
  protected_ : Value → Bool
  loaded : Nat
  module : Nat
  tostring : Value → Heap → Result (String × Heap)
  turns : Nat

def raise {α : Type} : Result α := .error (some ())

/-- `M.log_debug(message)` -/
def logDebug (env : Env) (message : Heap → Result (String × Heap)) (st : State) : Result State := do
  let (log_debug, heap) ← env.index Heap.maxHops env.module (.str "log_debug") st.heap
  let (msg_str, heap) ← message heap
  let (_, heap) ← env.call log_debug [.str msg_str] heap
  .ok { st with heap }

/-- `string.format("%sUpdate %s: %s", deep, name, signature)` -/
def updateText (env : Env) (deep : String) (name : Value) (signature : String) (heap : Heap) :
    Result (String × Heap) := do
  let (name, heap) ← env.tolstring name heap
  .ok (deep ++ "Update " ++ name ++ ": " ++ signature, heap)

/-- `check_updated`; `true` if there is nothing to update. -/
def checkUpdated (env : Env) (new_obj old_obj name : Value) (deep : String) (st : State) :
    Result (Bool × State) := do
  let (new_text, heap) ← env.tostring new_obj st.heap
  let (old_text, heap) ← env.tostring old_obj heap
  let signature := "new(" ++ new_text ++ ") old(" ++ old_text ++ ")"
  let st ← logDebug env (updateText env deep name signature) { st with heap }
  let log answer := st.log ++ [⟨new_obj, old_obj, signature, answer⟩]
  let (same, heap) ← env.eq new_obj old_obj st.heap
  if same then do
    let st ← logDebug env (fun heap => .ok (deep ++ "  Same", heap))
      { st with heap, log := log .same }
    .ok (true, st)
  else if signature ∈ st.updated_sig then do
    let st ← logDebug env (fun heap => .ok (deep ++ "  Already updated", heap))
      { st with heap, log := log .already }
    .ok (true, st)
  else
    .ok (false, { st with heap, updated_sig := signature :: st.updated_sig, log := log .fresh })

/-- `old_upvalue_map[name]`: of two upvalues with one name, the later. -/
def oldUpvalue (upvalues : List (String × Value)) (name : String) : Value :=
  (upvalues.reverse.lookup name).getD .nil

/-- What `log_dbg` of `update_func` logs. -/
def setupvalueText (env : Env) (deep name : String) (value old_value : Value) (heap : Heap) :
    Result (String × Heap) := do
  let (value, heap) ← env.tostring value heap
  let (old_value, heap) ← env.tostring old_value heap
  .ok (deep ++ "setupvalue " ++ name ++ ": (" ++ value ++ ") -> (" ++ old_value ++ ")", heap)

/-- One upvalue of the new function: the body of the second loop of `update_func`. -/
def updateUpvalue (env : Env) (rec : Task → State → Result State)
    (old_upvalue_map : List (String × Value)) (deep : String) (st : State)
    (upvalue : String × Nat) : Result State :=
  let name := upvalue.1
  let value := st.heap.cell upvalue.2
  let old_value := oldUpvalue old_upvalue_map name
  let setupvalue (st : State) := { st with heap := st.heap.setCell upvalue.2 old_value }
  let log_dbg := logDebug env (setupvalueText env deep name value old_value)
  if old_value.truthy then
    if old_value.type ≠ value.type then log_dbg (setupvalue st)
    else
      match old_value, value with
      | .func old_func, .func new_func => rec (.func new_func old_func (.str name) deep) st
      | .table old_table, .table new_table => do
        let st ← rec (.table new_table old_table (.str name) deep) st
        .ok (setupvalue st)
      | _, _ => log_dbg (setupvalue st)
  else .ok st

/-- `updated_func_map[old_func] = new_func` -/
def State.record (st : State) (old_func new_func : Nat) : State :=
  { st with updated_func_map := st.updated_func_map.insert old_func new_func }

@[simp] theorem State.record_heap (st : State) (old_func new_func : Nat) :
    (st.record old_func new_func).heap = st.heap := rfl

/-- `update_func` -/
def updateFunc (env : Env) (rec : Task → State → Result State) (new_func old_func : Nat)
    (name : Value) (deep : String) (st : State) : Result State :=
  if env.protected_ (.func old_func) then .ok st
  else do
    let (updated, st) ← checkUpdated env (.func new_func) (.func old_func) name deep st
    if updated then .ok st
    else
      let st := st.record old_func new_func
      let old_upvalue_map := (st.heap.closure old_func).map fun u => (u.1, st.heap.cell u.2)
      (st.heap.closure new_func).foldlM (updateUpvalue env rec old_upvalue_map (deep ++ "  ")) st

/-- `string.find(name, "_FUNC")`; `none` where it raises, which is for all but strings and
numbers. -/
def findFunc : Value → Option Bool
  | .str s => some (decide ("_FUNC".toList <:+: s.toList))
  | .num _ => some false
  | _ => none

/-- `name.."'s Meta"` -/
def metaName : Value → Option Value
  | .str s => some (.str (s ++ "'s Meta"))
  | .num n => some (.str (toString n ++ "'s Meta"))
  | _ => none

/-- What `update_table` logs of a field that it sets. -/
def fieldText (env : Env) (deep : String) (key old_value value : Value) (heap : Heap) :
    Result (String × Heap) := do
  let (old_value, heap) ← env.tostring old_value heap
  let (value, heap) ← env.tostring value heap
  let (key, heap) ← env.tolstring key heap
  .ok (deep ++ "Update field " ++ key ++ ": (" ++ old_value ++ ") -> (" ++ value ++ ")", heap)

/-- One field of the new table: the body of the loop of `update_table`. -/
def updateField (env : Env) (rec : Task → State → Result State) (old_table : Nat) (deep : String)
    (key value : Value) (st : State) : Result State := do
  let (old_value, heap) ← env.index Heap.maxHops old_table key st.heap
  if value.type ≠ old_value.type then do
    let heap ← env.newindex Heap.maxHops old_table key value heap
    logDebug env (fieldText env deep key old_value value) { st with heap }
  else
    match value, old_value with
    | .func new_func, .func old_func => rec (.func new_func old_func key deep) { st with heap }
    | .table new_table, .table old_table =>
      rec (.table new_table old_table key deep) { st with heap }
    | _, _ => .ok { st with heap }

/-- The end of `update_table`. -/
def updateMeta (rec : Task → State → Result State) (new_table old_table : Nat) (name : Value)
    (deep : String) (st : State) : Result State :=
  match st.heap.metatable old_table, st.heap.metatable new_table with
  | some old_meta, some new_meta =>
    match metaName name with
    | none => raise
    | some name => rec (.table new_meta old_meta name deep) st
  | _, _ => .ok st

/-- `update_table` from where the check is passed. -/
def updateFields (env : Env) (rec : Task → State → Result State) (new_table old_table : Nat)
    (name : Value) (deep : String) (st : State) : Result State := do
  let st ← env.forPairs State.heap (fun st heap => { st with heap }) env.turns new_table
    (updateField env rec old_table (deep ++ "  ")) st
  updateMeta rec new_table old_table name (deep ++ "  ") st

/-- `update_table` -/
def updateTable (env : Env) (rec : Task → State → Result State) (new_table old_table : Nat)
    (name : Value) (deep : String) (st : State) : Result State :=
  if env.protected_ (.table old_table) then .ok st
  else
    match findFunc name with
    | none => raise
    | some true => updateFields env rec new_table old_table name deep st
    | some false => do
      let (updated, st) ← checkUpdated env (.table new_table) (.table old_table) name deep st
      if updated then .ok st else updateFields env rec new_table old_table name deep st

/-- `update_func` and `update_table`. -/
def body (env : Env) (rec : Task → State → Result State) : Task → State → Result State
  | .func new_func old_func name deep => updateFunc env rec new_func old_func name deep
  | .table new_table old_table name deep => updateTable env rec new_table old_table name deep

/-- The variables of the module when an update starts. -/
def State.start (heap : Heap) : State := ⟨heap, [], ∅, []⟩

@[simp] theorem State.start_heap (heap : Heap) : (State.start heap).heap = heap := rfl

/-- `string.format("Directly replace module: old(%s) -> new(%s)", …)` -/
def replaceText (env : Env) (old_obj new_obj : Value) (heap : Heap) : Result (String × Heap) := do
  let (old_obj, heap) ← env.tostring old_obj heap
  let (new_obj, heap) ← env.tostring new_obj heap
  .ok ("Directly replace module: old(" ++ old_obj ++ ") -> new(" ++ new_obj ++ ")", heap)

/-- The end of `update_loaded_module2`. -/
def replaceModule (env : Env) (module_name : String) (old_obj new_obj : Value) (st : State) :
    Result State := do
  let st ← logDebug env (replaceText env old_obj new_obj) st
  let heap ← env.newindex Heap.maxHops env.loaded (.str module_name) new_obj st.heap
  .ok { st with heap }

/-- `update_loaded_module2` -/
def updateLoadedModule2 (env : Env) (fuel : Nat) (module_name : String) (new_obj : Value)
    (st : State) : Result State :=
  if new_obj = .nil then raise
  else do
    let (old_obj, heap) ← env.index Heap.maxHops env.loaded (.str module_name) st.heap
    match new_obj, old_obj with
    | .table new_table, .table old_table =>
      Fuel.run (body env) fuel (.table new_table old_table (.str module_name) "") { st with heap }
    | .func new_func, .func old_func =>
      Fuel.run (body env) fuel (.func new_func old_func (.str module_name) "") { st with heap }
    | _, _ => replaceModule env module_name old_obj new_obj { st with heap }

/-- `update_loaded_module`, with calls nested to a depth of `fuel`. -/
def updateLoadedModule (env : Env) (fuel : Nat) (module_name : String) (new_obj : Value)
    (heap : Heap) : Result State := do
  let st ← updateLoadedModule2 env fuel module_name new_obj (State.start heap)
  .ok { st with updated_sig := [] }

end SkynetHotfix.ModuleUpdater
