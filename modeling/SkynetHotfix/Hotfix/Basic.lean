import SkynetHotfix.FunctionsReplacer.Basic
import SkynetHotfix.ModuleUpdater.Basic

/-!
# Hotfix

`common/hotfix/hotfix.lua`: `hotfix_module` loads a module anew, has the module
updater compare it with the module in use and the functions replacer put the
updated functions in the place of the old ones.

The chunk is code of the module's own: it writes to the heap and returns a
value, or is not found, does not load or raises. `M.add_protect` is the one of
the module, and neither the chunk nor other code of the service calls it, or
starts a hotfix, on the way.
-/

namespace SkynetHotfix.Hotfix

open Lua

/-- What a hotfix finds: what the module updater does, the tables `M` of the module and
`functions_replacer`, and what the functions replacer needs besides. -/
structure Env extends ModuleUpdater.Env where
  hotfix : Nat
  functions_replacer : Nat
  orderNew : (AList fun _ : Nat => Value) → List Nat
  orderNew_perm : ∀ new, (orderNew new).Perm new.keys
  globals : Nat
  registry : Nat
  func_map : Nat

/-- What the functions replacer finds. -/
def Env.replacer (env : Env) : FunctionsReplacer.Env where
  toRuntime := env.toRuntime
  protected_ := env.protected_
  orderNew := env.orderNew
  orderNew_perm := env.orderNew_perm
  globals := env.globals
  registry := env.registry
  func_map := env.func_map
  turns := env.turns

/-- What a hotfix leaves: the heap, its variable `updated_function_map`, and `protected`. -/
structure Hotfixed where
  heap : Heap
  updated_function_map : FunctionsReplacer.FuncMap
  protected_ : Value → Bool

/-- `add_protect` -/
def addProtect (object_array : List Value) (protected_ : Value → Bool) : Value → Bool :=
  fun obj => (decide (obj ∈ object_array) && obj ≠ .nil) || protected_ obj

/-- The tables that `add_self_to_protect` protects, and their fields. -/
def Env.selfTables (env : Env) : List Value :=
  [.table env.hotfix, .table env.module, .table env.functions_replacer]

def Env.selfFields (env : Env) : List (Nat × String) :=
  [(env.hotfix, "hotfix_module"), (env.hotfix, "log_error"), (env.hotfix, "log_info"),
    (env.hotfix, "log_debug"), (env.hotfix, "add_protect"), (env.hotfix, "remove_protect"),
    (env.module, "log_debug"), (env.module, "update_loaded_module"),
    (env.functions_replacer, "replace_all")]

/-- One field of the table that `add_self_to_protect` constructs. -/
def readField (env : Env) (acc : List Value × Heap) (field : Nat × String) :
    Result (List Value × Heap) := do
  let (v, heap) ← env.index Heap.maxHops field.1 (.str field.2) acc.2
  .ok (acc.1 ++ [v], heap)

/-- `add_self_to_protect` -/
def addSelfToProtect (env : Env) (heap : Heap) : Result ((Value → Bool) × Heap) := do
  let (_, heap) ← env.index Heap.maxHops env.hotfix (.str "add_protect") heap
  let (object_array, heap) ← env.selfFields.foldlM (readField env) (env.selfTables, heap)
  .ok (addProtect object_array env.protected_, heap)

/-- `hotfix_module_with_obj`, with calls nested to a depth of `fuel`. -/
def hotfixModuleWithObj (env : Env) (fuel : Nat) (module_name : String) (module_obj : Value)
    (heap : Heap) : Result Hotfixed := do
  let (protected_, heap) ← addSelfToProtect env heap
  let env := { env with protected_ }
  -- `module_updater.log_debug = M.log_debug`
  let (log_debug, heap) ← env.index Heap.maxHops env.hotfix (.str "log_debug") heap
  let heap ← env.newindex Heap.maxHops env.module (.str "log_debug") log_debug heap
  let st ← ModuleUpdater.updateLoadedModule env.toEnv fuel module_name module_obj heap
  let heap ← FunctionsReplacer.replaceAll env.replacer fuel st.updated_func_map module_obj st.heap
  .ok ⟨heap, st.updated_func_map, protected_⟩

/-- `M.log_debug(msg_str)` -/
def logDebug (env : Env) (msg_str : String) (heap : Heap) : Result Heap := do
  let (log_debug, heap) ← env.index Heap.maxHops env.hotfix (.str "log_debug") heap
  let (_, heap) ← env.call log_debug [.str msg_str] heap
  .ok heap

/-- `if nil == obj then obj = true end` -/
def moduleObj (obj : Value) : Value := if obj = .nil then .bool true else obj

theorem moduleObj_ne_nil (obj : Value) : moduleObj obj ≠ .nil := by
  unfold moduleObj
  split
  · exact Value.noConfusion
  · assumption

/-- `hotfix_module`, and `package.loaded[module_name]`, which it returns. -/
def hotfixModule (env : Env) (fuel : Nat) (module_name : String)
    (chunk : Heap → Result (Value × Heap)) (heap : Heap) : Result (Hotfixed × Value) := do
  let (loaded, heap) ← env.index Heap.maxHops env.loaded (.str module_name) heap
  if loaded.truthy = false then do
    let heap ← logDebug env ("Skip unloaded module: " ++ module_name) heap
    let (loaded, heap) ← env.index Heap.maxHops env.loaded (.str module_name) heap
    .ok (⟨heap, ∅, env.protected_⟩, loaded)
  else do
    let heap ← logDebug env ("Hot fix module: " ++ module_name) heap
    let (obj, heap) ← chunk heap
    let done ← hotfixModuleWithObj env fuel module_name (moduleObj obj) heap
    let (loaded, heap) ← env.index Heap.maxHops env.loaded (.str module_name) done.heap
    .ok ({ done with heap }, loaded)

end SkynetHotfix.Hotfix
