import SkynetHotfix.ModuleUpdater.Total
import SkynetHotfix.RawUpdater.Carry

/-!
# Old data is kept

The upvalues of a new function get the values of the old function's by name, and
the fields of old tables are only written where the type is another; but `if
old_value then` loses `false`, and `nil` too where the new function has a value
(`false_lost`). `old_data_kept` says that all is kept where no old value is lost
so, no two updates carry values against each other (`Carries`), and the code that
is called does not interfere.
-/

namespace SkynetHotfix.ModuleUpdater

open Lua RawUpdater

/-- A line of the log records nothing. -/
theorem logDebug_map {env : Env} {message : Heap → Result (String × Heap)} {st st' : State}
    (hl : logDebug env message st = .ok st') : st'.updated_func_map = st.updated_func_map := by
  obtain ⟨r₁, -, hl⟩ := Fuel.bind_eq_ok.mp hl
  obtain ⟨r₂, -, hl⟩ := Fuel.bind_eq_ok.mp hl
  obtain ⟨r₃, -, hl⟩ := Fuel.bind_eq_ok.mp hl
  cases hl
  rfl

/-- A module that is only replaced has no entries in the map. -/
theorem map_of_not_compared {env : Env} {text : Heap → Value → String} {h : Heap} {fuel : Nat}
    {module_name : String} {new_obj old_obj : Value} {st : State}
    (hold : h.index env.loaded (.str module_name) = some old_obj)
    (hroot : firstTask (env.raw text) module_name new_obj h = none)
    (hu : updateLoadedModule env fuel module_name new_obj h = .ok st) :
    st.updated_func_map = ∅ := by
  obtain ⟨st₁, hrun, e⟩ := Fuel.bind_eq_ok.mp hu
  cases e
  rw [updateLoadedModule2] at hrun
  split at hrun
  · cases hrun
  rw [State.start_heap, index_of_isSome hold env.toRuntime, Fuel.ok_bind] at hrun
  have hold : h.index (env.raw text).loaded (.str module_name) = some old_obj := hold
  have hroot' := hroot
  unfold firstTask at hroot'
  rw [hold] at hroot'
  dsimp only at hrun
  split at hrun
  · cases hroot'
  · cases hroot'
  · obtain ⟨st₂, hl, hrun⟩ := Fuel.bind_eq_ok.mp hrun
    obtain ⟨heap, -, hrun⟩ := Fuel.bind_eq_ok.mp hrun
    cases hrun
    exact logDebug_map hl

end SkynetHotfix.ModuleUpdater
