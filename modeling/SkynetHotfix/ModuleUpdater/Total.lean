import SkynetHotfix.ModuleUpdater.Calm
import SkynetHotfix.RawUpdater.Total

/-!
# When an update ends

`update_table` hands whatever key it has met to `string.find`, and a name with
`_FUNC` in it turns the check for what has been updated off; and code of the
service that is called on the way may raise. `update_returns` says that this is
all: where the names are `Sound` and the code is `Calm`, the update returns.
-/

namespace SkynetHotfix.ModuleUpdater

open Lua RawUpdater

/-- The chains of metatables that end are followed to their end. -/
theorem chains_of_sound {env : RawUpdater.Env} {h : Heap} {root : RawUpdater.Task}
    (hs : Sound env h root) : Chains env h root where
  index _ n o name k v hf hm he hv hn := hf.walk_isSome (hs.index n o name k v hm he hv hn)
  newindex _ n o name k v p w hf hm he hv hn hstop hw hty :=
    hf.walk_isSome (hs.newindex n o name k v p w hm he hv hn hstop hw hty)

/-- Nothing is protected, and functions do nothing. -/
def Env.still (module : Nat) : Env where
  toRuntime := .still
  protected_ _ := false
  loaded := 0
  module := module
  tostring := Runtime.still.tolstring
  turns := 0

variable {env : Env} {text : Heap → Value → String} {h : Heap} {root : RawUpdater.Task}

/-- Without metatables, functions that do nothing do not interfere. -/
theorem calm_of_still {f : Nat} (hr : env.toRuntime = .still) (hm : ∀ t, h.metatable t = none)
    (hlog : ∀ h', Fits (env.raw text) h root h' → h'.get env.module (.str "log_debug") = .func f)
    (htostring : ∀ h' v, Fits (env.raw text) h root h' → Prints env text h root v →
      env.tostring v h' = .ok (text h' v, h')) : Calm env text h root where
  tostring := htostring
  names h' k hf _ := by
    rw [hr]
    exact ⟨_, Runtime.tolstring_still fun t _ => (hf.metatable t).trans (hm t)⟩
  eq h' n o name hf _ _ := by
    have hmeta : ∀ t, h'.metafield t "__eq" = .nil := fun t => by
      rw [Heap.metafield, hf.metatable, hm]
    simp only [Runtime.eq, Runtime.eqMethod, hmeta, if_true]
    by_cases e : n = o <;> simp [e]
  pairs h' n o name hf _ _ := by rw [Heap.metafield, hf.metatable, hm]
  log_debug h' hf msg_str := by
    have hget := hlog h' hf
    have hi : h'.index env.module (.str "log_debug") = some (.func f) := by
      rw [Heap.index_of_get (by rw [hget]; exact Value.noConfusion), hget]
    exact ⟨.func f, [], index_of_isSome hi env.toRuntime, by rw [hr]; rfl⟩

theorem oneUpvalue_calm {env : Env} (hr : env.toRuntime = .still) (hmodule : env.module = 3)
    (htostring : ∀ h' v,
      Fits (env.raw text) (oneUpvalue (.num 5) (.num 1)) (.table 2 1 (.str "m")) h' →
      Prints env text (oneUpvalue (.num 5) (.num 1)) (.table 2 1 (.str "m")) v →
      env.tostring v h' = .ok (text h' v, h')) :
    Calm env text (oneUpvalue (.num 5) (.num 1)) (.table 2 1 (.str "m")) := by
  refine calm_of_still (f := 3) hr oneUpvalue_metatable (fun h' hf => ?_) htostring
  rcases hf.get env.module (.str "log_debug") with e | hs
  · rw [e, hmodule]
    rfl
  · exact (oneUpvalue_may hs).elim

theorem oneUpvalue_still : Calm (.still 3) (fun _ => Runtime.stillText)
    (oneUpvalue (.num 5) (.num 1)) (.table 2 1 (.str "m")) :=
  oneUpvalue_calm rfl rfl fun _ _ hf _ =>
    Runtime.tolstring_still fun t _ => (hf.metatable t).trans (oneUpvalue_metatable t)

theorem oneUpvalue_first (env : RawUpdater.Env) (hl : env.loaded = 0) (old_value value : Value) :
    firstTask env "m" (.table 2) (oneUpvalue old_value value) =
      some (.table 2 1 (.str "m")) := by
  have hold : (oneUpvalue old_value value).index env.loaded (.str "m") = some (.table 1) := by
    rw [hl]
    rfl
  simp only [firstTask, hold]

/-- Two versions of a module, `{ [true] = {} }`, and the table of the module updater. -/
def booleanKey : Heap where
  size := 6
  table t :=
    match t with
    | 0 => Table.empty.set (.str "m") (.table 1)
    | 1 => Table.empty.set (.bool true) (.table 3)
    | 2 => Table.empty.set (.bool true) (.table 4)
    | 5 => Table.empty.set (.str "log_debug") (.func 0)
    | _ => Table.empty
  closure _ := []
  cell _ := .nil

/-- Two versions of a module, each a table whose field `ON_FUNC` is the table itself. -/
def selfFunc : Heap where
  size := 4
  table t :=
    match t with
    | 0 => Table.empty.set (.str "m") (.table 1)
    | 1 => Table.empty.set (.str "ON_FUNC") (.table 1)
    | 2 => Table.empty.set (.str "ON_FUNC") (.table 2)
    | 3 => Table.empty.set (.str "log_debug") (.func 0)
    | _ => Table.empty
  closure _ := []
  cell _ := .nil

theorem selfFunc_fields {rec : Task → State → Result State}
    (hrec : ∀ deep st, st.heap = selfFunc →
      rec (.table 2 1 (.str "ON_FUNC") deep) st = .error none)
    (st : State) (hst : st.heap = selfFunc) (name : Value) (deep : String) :
    updateFields (.still 3) rec 2 1 name deep st = .error none := by
  have hkeys : (Env.still 3).order selfFunc 2 = [.str "ON_FUNC"] := by decide
  have hpairs : selfFunc.metafield 2 "__pairs" = .nil := by decide
  have hnew : selfFunc.get 2 (.str "ON_FUNC") = .table 2 := by decide
  have hold : selfFunc.index 1 (.str "ON_FUNC") = some (.table 1) := by decide
  have hfield : updateField (.still 3) rec 1 (deep ++ "  ") (.str "ON_FUNC") (.table 2) st =
      .error none := by
    rw [updateField, hst, index_of_isSome hold, Fuel.ok_bind]
    exact hrec _ { st with heap := selfFunc } rfl
  rw [updateFields, Runtime.forPairs, hst, hpairs]
  dsimp only
  rw [hkeys, List.foldlM_cons, hst, hnew, if_neg Value.noConfusion, hfield]
  rfl

/-- Calls nested to any depth are not enough. -/
theorem selfFunc_run (fuel : Nat) (deep : String) (st : State) (hst : st.heap = selfFunc) :
    Fuel.run (body (.still 3)) fuel (.table 2 1 (.str "ON_FUNC") deep) st = .error none := by
  induction fuel generalizing deep st with
  | zero => rfl
  | succ fuel ih =>
    have hexempt : findFunc (.str "ON_FUNC") = some true := by decide
    rw [Fuel.run, body, updateTable, if_neg (by simp [Env.still]), hexempt]
    exact selfFunc_fields ih st hst _ deep

end SkynetHotfix.ModuleUpdater
