import SkynetHotfix.FunctionsReplacer.Calm
import SkynetHotfix.Hotfix.Basic
import SkynetHotfix.ModuleUpdater.Carry

/-!
# Hotfixes that are not interfered with

Where the code of the service that it calls does not interfere (`Starts`,
`Quiet`), a hotfix is a raw update and a raw replacement, one after the other
(`TwoSteps`), if the new version is compared with the module in use.
-/

namespace SkynetHotfix.Hotfix

open Lua
open RawUpdater (firstTask Fits)
open ModuleUpdater (State Chains Mute updateLoadedModule index_of_isSome)
open FunctionsReplacer (Inert)

namespace Env

/-- What `add_self_to_protect` protects. -/
def selfValues (env : Env) (h : Heap) : List Value :=
  env.selfTables ++ env.selfFields.map fun field => (h.index field.1 (.str field.2)).getD .nil

def protectSelf (env : Env) (h : Heap) : Env :=
  { env with protected_ := addProtect (env.selfValues h) env.protected_ }

/-- What `module_updater.log_debug = M.log_debug` makes of the heap. -/
def setLogDebug (env : Env) (h : Heap) : Heap :=
  ((h.index env.hotfix (.str "log_debug")).bind
    (h.newindex env.module (.str "log_debug"))).getD h

/-- What is left for the two steps where no code runs. -/
def updating (env : Env) (text : Heap → Value → String) (h : Heap) : RawUpdater.Env :=
  (env.protectSelf h).toEnv.raw text

def replacing (env : Env) (h : Heap) : RawReplacer.Env :=
  (env.protectSelf h).replacer.raw

end Env

/-- The code that a hotfix calls before the new chunk runs does not interfere. -/
structure Starts (env : Env) (module_name : String) (h : Heap) : Prop where
  loaded : (h.index env.loaded (.str module_name)).isSome
  log_debug : Mute env.toRuntime env.hotfix h

/-- The code that a hotfix calls from where the chunk has ended does not interfere: the fields of the
modules are tables' own or looked up in tables, and so is the module in `package.loaded`; the update
is calm, and no metamethods come in the way of the replacement, whatever the update leaves. -/
structure Quiet (env : Env) (text : Heap → Value → String) (module_name : String) (obj : Value)
    (h : Heap) : Prop where
  self : ∀ field ∈ env.selfFields, (h.index field.1 (.str field.2)).isSome
  log_debug : (h.walk "__newindex" Heap.maxHops env.module (.str "log_debug")).isSome
  loaded : (env.setLogDebug h).get env.loaded (.str module_name) ≠ .nil
  fresh : obj ≠ .table env.func_map
  calm : ∀ root, firstTask (env.updating text h) module_name obj (env.setLogDebug h) = some root →
    ModuleUpdater.Calm (env.protectSelf h).toEnv text (env.setLogDebug h) root ∧
    Chains (env.updating text h) (env.setLogDebug h) root
  inert : ∀ root, firstTask (env.updating text h) module_name obj (env.setLogDebug h) = some root →
    ∀ h', Fits (env.updating text h) (env.setLogDebug h) root h' →
      Inert (env.protectSelf h).replacer h'

variable {env : Env} {text : Heap → Value → String} {h : Heap} {module_name : String} {obj : Value}
  {fuel : Nat} {done : Hotfixed} {loaded : Value}

/-- The two steps of a hotfix. -/
structure TwoSteps (env : Env) (text : Heap → Value → String) (fuel : Nat) (obj : Value) (h : Heap)
    (root : RawUpdater.Task) (st : State) (h' : Heap) : Prop where
  update : Fuel.run (RawUpdater.body (env.updating text h)) fuel root
    (State.start (env.setLogDebug h)) = .ok st
  replace : RawReplacer.replaceAll (env.replacing h) fuel st.updated_func_map obj st.heap = .ok h'

/-! ## The first lines -/

theorem readFields_eq {fields : List (Nat × String)}
    (hf : ∀ field ∈ fields, (h.index field.1 (.str field.2)).isSome) (values : List Value) :
    fields.foldlM (readField env) (values, h) =
      .ok (values ++ fields.map fun field => (h.index field.1 (.str field.2)).getD .nil, h) := by
  induction fields generalizing values with
  | nil => simp [pure, Except.pure]
  | cons field fields ih =>
    obtain ⟨v, hv⟩ := Option.isSome_iff_exists.mp (hf field List.mem_cons_self)
    have hread : readField env (values, h) field = .ok (values ++ [v], h) := by
      rw [readField, index_of_isSome hv]
      rfl
    have hrest := ih (fun field' hm => hf field' (List.mem_cons_of_mem _ hm)) (values ++ [v])
    rw [List.foldlM_cons, hread, Fuel.ok_bind, hrest, List.map_cons, hv]
    simp

theorem Quiet.addSelfToProtect_eq (hq : Quiet env text module_name obj h) :
    addSelfToProtect env h = .ok ((env.protectSelf h).protected_, h) := by
  obtain ⟨v, hv⟩ := Option.isSome_iff_exists.mp
    (hq.self (env.hotfix, "add_protect") (by simp [Env.selfFields]))
  rw [addSelfToProtect, index_of_isSome hv, Fuel.ok_bind]
  dsimp only
  rw [readFields_eq hq.self]
  rfl

/-- The assignment of the third line. -/
theorem Quiet.setLogDebug (hq : Quiet env text module_name obj h) : ∃ log_debug q,
    h.index env.hotfix (.str "log_debug") = some log_debug ∧
    h.walk "__newindex" Heap.maxHops env.module (.str "log_debug") = some q ∧
    env.setLogDebug h = h.set q (.str "log_debug") log_debug := by
  obtain ⟨log_debug, hv⟩ := Option.isSome_iff_exists.mp
    (hq.self (env.hotfix, "log_debug") (by simp [Env.selfFields]))
  obtain ⟨q, hw⟩ := Option.isSome_iff_exists.mp hq.log_debug
  refine ⟨log_debug, q, hv, hw, ?_⟩
  have hnew : h.newindex env.module (.str "log_debug") log_debug =
      some (h.set q (.str "log_debug") log_debug) := by rw [Heap.newindex, hw, Option.map_some]
  rw [Env.setLogDebug, show h.index env.hotfix (.str "log_debug") = some log_debug from hv,
    Option.bind_some, hnew, Option.getD_some]

/-- The two steps, as the code has them. -/
theorem hotfixModuleWithObj_ok (hq : Quiet env text module_name obj h)
    (hu : hotfixModuleWithObj env fuel module_name obj h = .ok done) :
    ∃ st, updateLoadedModule (env.protectSelf h).toEnv fuel module_name obj
        (env.setLogDebug h) = .ok st ∧
      FunctionsReplacer.replaceAll (env.protectSelf h).replacer fuel st.updated_func_map obj
        st.heap = .ok done.heap ∧
      done.updated_function_map = st.updated_func_map ∧
      done.protected_ = (env.protectSelf h).protected_ := by
  obtain ⟨log_debug, q, hindex, hwalk, hset⟩ := hq.setLogDebug
  rw [hotfixModuleWithObj, hq.addSelfToProtect_eq, Fuel.ok_bind] at hu
  dsimp only at hu
  rw [index_of_isSome hindex, Fuel.ok_bind] at hu
  dsimp only at hu
  rw [Runtime.newindex_of_walk hwalk, Fuel.ok_bind, ← hset] at hu
  obtain ⟨st, hupdate, hu⟩ := Fuel.bind_eq_ok.mp hu
  obtain ⟨h', hreplace, hu⟩ := Fuel.bind_eq_ok.mp hu
  cases hu
  exact ⟨st, hupdate, hreplace, rfl, rfl⟩

/-- The module as the update finds it. -/
theorem Quiet.index_loaded (hq : Quiet env text module_name obj h) :
    ∃ old_obj, (env.setLogDebug h).index env.loaded (.str module_name) = some old_obj :=
  ⟨_, Heap.index_of_get hq.loaded⟩

/-- What is compared is updated and replaced. -/
theorem twoSteps_of_compared {root : RawUpdater.Task} (hq : Quiet env text module_name obj h)
    (hroot : firstTask (env.updating text h) module_name obj (env.setLogDebug h) = some root)
    (hu : hotfixModuleWithObj env fuel module_name obj h = .ok done) :
    ∃ st, TwoSteps env text fuel obj h root st done.heap ∧
      done.updated_function_map = st.updated_func_map ∧
      done.protected_ = (env.protectSelf h).protected_ := by
  obtain ⟨st', hupdate, hreplace, hmap, hprotected⟩ := hotfixModuleWithObj_ok hq hu
  obtain ⟨hcalm, hchains⟩ := hq.calm root hroot
  obtain ⟨st, hrun, rfl⟩ := ModuleUpdater.run_of_updated hroot hcalm hchains hupdate
  have hinert := hq.inert root hroot st.heap (RawUpdater.fits_run hrun)
  rw [FunctionsReplacer.replaceAll_eq hinert fuel hq.fresh] at hreplace
  exact ⟨st, ⟨hrun, hreplace⟩, hmap, hprotected⟩

/-- The module stays in `package.loaded`. -/
theorem get_loaded_of_compared {root : RawUpdater.Task} (hq : Quiet env text module_name obj h)
    (hroot : firstTask (env.updating text h) module_name obj (env.setLogDebug h) = some root)
    (hu : hotfixModuleWithObj env fuel module_name obj h = .ok done) :
    done.heap.get env.loaded (.str module_name) ≠ .nil := by
  obtain ⟨st, htwo, -⟩ := twoSteps_of_compared hq hroot hu
  have hfits := RawUpdater.fits_run htwo.update
  exact RawReplacer.replaceAll_field (hfits.ne_nil hq.loaded) htwo.replace

/-- What is not compared leaves nothing to replace. -/
theorem map_of_not_compared (hq : Quiet env text module_name obj h)
    (hroot : firstTask (env.updating text h) module_name obj (env.setLogDebug h) = none)
    (hu : hotfixModuleWithObj env fuel module_name obj h = .ok done) :
    done.updated_function_map = ∅ ∧ ∃ st,
      updateLoadedModule (env.protectSelf h).toEnv fuel module_name obj (env.setLogDebug h) =
        .ok st ∧ done.heap = st.heap := by
  obtain ⟨st, hupdate, hreplace, hmap, -⟩ := hotfixModuleWithObj_ok hq hu
  obtain ⟨old_obj, hold⟩ := hq.index_loaded
  have hold' : (env.setLogDebug h).index (env.protectSelf h).loaded (.str module_name) =
      some old_obj := hold
  have hempty := ModuleUpdater.map_of_not_compared hold' hroot hupdate
  rw [hempty] at hmap hreplace
  exact ⟨hmap, st, hupdate, (Except.ok.inj hreplace).symm⟩

/-! ## The module -/

/-- The module is skipped, or hotfixed from where its chunk ends. -/
theorem hotfixModule_ok {chunk : Heap → Result (Value × Heap)} (hs : Starts env module_name h)
    (hu : hotfixModule env fuel module_name chunk h = .ok (done, loaded)) :
    (done = ⟨h, ∅, env.protected_⟩ ∧
      ∀ was, h.index env.loaded (.str module_name) = some was → was.truthy = false) ∨
    ∃ obj h₁ done₁ h', chunk h = .ok (obj, h₁) ∧
      hotfixModuleWithObj env fuel module_name (moduleObj obj) h₁ = .ok done₁ ∧
      env.index Heap.maxHops env.loaded (.str module_name) done₁.heap = .ok (loaded, h') ∧
      done = { done₁ with heap := h' } := by
  obtain ⟨was, hwas⟩ := Option.isSome_iff_exists.mp hs.loaded
  have hlog : ∀ msg_str, logDebug env msg_str h = .ok h := by
    intro msg_str
    obtain ⟨log_debug, values, hindex, hcall⟩ := hs.log_debug msg_str
    simp only [logDebug, hindex, hcall, Fuel.ok_bind]
  rw [hotfixModule, index_of_isSome hwas, Fuel.ok_bind] at hu
  dsimp only at hu
  split at hu <;> rename_i hfalse
  · rw [hlog, Fuel.ok_bind, index_of_isSome hwas, Fuel.ok_bind] at hu
    cases hu
    exact .inl ⟨rfl, fun _ e => by cases hwas.symm.trans e; exact hfalse⟩
  · rw [hlog, Fuel.ok_bind] at hu
    obtain ⟨⟨obj, h₁⟩, hchunk, hu⟩ := Fuel.bind_eq_ok.mp hu
    obtain ⟨done₁, hdone, hu⟩ := Fuel.bind_eq_ok.mp hu
    obtain ⟨⟨loaded', h'⟩, hloaded, hu⟩ := Fuel.bind_eq_ok.mp hu
    cases hu
    exact .inr ⟨obj, h₁, done₁, h', hchunk, hdone, hloaded, rfl⟩

end SkynetHotfix.Hotfix
