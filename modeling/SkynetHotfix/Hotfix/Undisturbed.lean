import SkynetHotfix.Hotfix.Calm
import SkynetHotfix.RawUpdater.Cover

/-!
# The rest of the service

A hotfix should leave alone the functions that were there before the new chunk
ran and the tables that are protected (`Undisturbed`). It does not ask for the
functions, tables and upvalues of the new version whether they are new: a
function of another module in a field of the new version gets the upvalues of
the old function in that field (`other_module_disturbed`). `rest_undisturbed`
says that, where no such value comes to what is old or protected (`Separate`)
and the code that is called does not interfere, the rest is left alone; on a
path that the update covers it is left alone only there (`Undisturbed.agrees`).
-/

namespace SkynetHotfix.Hotfix

open Lua RawUpdater
open ModuleUpdater (State Silent updateLoadedModule_eq_replace index_of_isSome)
open FunctionsReplacer (FuncMap renew)
open RawReplacer (Aside Leads Once replaceAll replaceAll_framed replaceAll_once replaceAll_cell
  replaceAll_ok renew_of_some)

section

variable {env : RawUpdater.Env} {renv : RawReplacer.Env} {h : Heap} {root : Task}
  {existed : Nat → Prop}

/-- The update may record `f` as the new version of `g`. -/
def Mapped (env : RawUpdater.Env) (h : Heap) (root : Task) (g f : Nat) : Prop :=
  May env h root (.meets (.func f g)) ∧ env.Compares (.func f g)

theorem mapped_run {fuel : Nat} {st : State}
    (hr : Fuel.run (RawUpdater.body env) fuel root (State.start h) = .ok st) :
    ∀ g f, st.updated_func_map.lookup g = some f → Mapped env h root g f := by
  refine (run_keeps (P := fun st => Fits env h root st.heap ∧
    ∀ g f, st.updated_func_map.lookup g = some f → Mapped env h root g f)
    ⟨fun _ hst => hst.1, fun _ _ _ _ hst hs => ⟨hst.1.set hs, hst.2⟩,
      fun _ _ _ hst hc => ⟨hst.1.setCell hc, hst.2⟩⟩ (fun st v w hst => ?_)
    (fun st f g hst hm he => ⟨hst.1, fun g' f' hl => ?_⟩) fuel root _ st
    ⟨.root, .refl env h root, by simp [State.start]⟩ hr).2
  · obtain ⟨e₁, e₂⟩ := checkUpdated_heap env v w st
    rw [e₁, e₂]
    exact hst
  · by_cases e : g' = g
    · subst e
      have ef : f = f' := by simpa [State.record] using hl
      subst ef
      exact ⟨hm, he⟩
    · simp only [State.record] at hl
      rw [AList.lookup_insert_ne e] at hl
      exact hst.2 g' f' hl

/-- An assignment to the one table may end at the other, whatever the update stores. -/
def MayLead (env : RawUpdater.Env) (h : Heap) (root : Task) : Nat → Nat → Prop :=
  Relation.ReflTransGen fun t p =>
    ∃ m, h.metatable t = some m ∧ May env h root (.holds m (.str "__newindex") (.table p))

theorem mayLead_of_fits {h' : Heap} (hf : Fits env h root h') {t q : Nat} (hl : Leads h' t q) :
    MayLead env h root t q :=
  hl.lift id fun t p ⟨m, hm, hp⟩ => ⟨m, by rw [← hf.metatable]; exact hm, hp ▸ hf.holds m _⟩

/-- Nothing comes to the upvalues of the functions that existed or to the fields of protected
tables: the update carries and stores nothing new there, no key that is replaced leads to a
protected table, and no upvalue with a function that is replaced is shared with a protected
function, or shared at all where the new version is itself replaced. -/
structure Separate (env : RawUpdater.Env) (renv : RawReplacer.Env) (h : Heap) (root : Task)
    (existed : Nat → Prop) : Prop where
  carried : ∀ f x c w, existed f → (x, c) ∈ h.closure f →
    May env h root (.carried c w) → w = h.cell c
  stored : ∀ t k v, renv.protected_ (.table t) = true → May env h root (.stored t k v) →
    v = h.get t k
  aside : ∀ t q g f v, renv.protected_ (.table t) = false → renv.protected_ (.table q) = true →
    MayLead env h root t q → Mapped env h root g f →
    May env h root (.holds t (.func g) v) → v = .nil
  shared : ∀ f u x y c g f', existed f → renv.protected_ (.func f) = true →
    renv.protected_ (.func u) = false → (x, c) ∈ h.closure f → (y, c) ∈ h.closure u →
    h.cell c = .func g → ¬ Mapped env h root g f'
  once : ∀ f x c g f' f'', existed f → renv.protected_ (.func f) = false →
    (x, c) ∈ h.closure f → h.cell c = .func g → Mapped env h root g f' →
    Mapped env h root f' f'' → Once renv h c

/-- No upvalue of a function that existed and no field of a protected table is another than in
`h`, unless it is an upvalue of a function that is not protected: that may have the new version of
an updated function for the old. -/
structure Undisturbed (protected_ : Value → Bool) (existed : Nat → Prop) (h h' : Heap)
    (updated_function_map : FuncMap) : Prop where
  closure : h'.closure = h.closure
  upvalue : ∀ f x c, existed f → (x, c) ∈ h.closure f → h'.cell c = h.cell c ∨
    protected_ (.func f) = false ∧ ∃ g f', h.cell c = .func g ∧
      updated_function_map.lookup g = some f' ∧ h'.cell c = .func f'
  field : ∀ t k, protected_ (.table t) = true → h'.get t k = h.get t k

theorem Undisturbed.refl (protected_ : Value → Bool) (existed : Nat → Prop) (h : Heap)
    (updated_function_map : FuncMap) :
    Undisturbed protected_ existed h h updated_function_map :=
  ⟨rfl, fun _ _ _ _ _ => .inl rfl, fun _ _ _ => rfl⟩

/-- The two steps, one after the other. -/
theorem Separate.undisturbed {fuel : Nat} {module_obj : Value} {st : State} {h' : Heap}
    (hs : Separate env renv h root existed)
    (hrun : Fuel.run (RawUpdater.body env) fuel root (State.start h) = .ok st)
    (hreplace : replaceAll renv fuel st.updated_func_map module_obj st.heap = .ok h') :
    Undisturbed renv.protected_ existed h h' st.updated_func_map := by
  have hfits := fits_run hrun
  have hmapped := mapped_run hrun
  have haside : Aside renv st.updated_func_map st.heap (Leads st.heap) :=
    fun t q g f ht hq hl hg =>
      hs.aside t q g f _ ht hq (mayLead_of_fits hfits hl) (hmapped g f hg) (hfits.holds t _)
  have hframed := replaceAll_framed haside hreplace
  refine ⟨hframed.closure.trans hfits.closure, fun f x c hf hx => ?_, fun t k ht => ?_⟩
  · have hcell : st.heap.cell c = h.cell c := by
      rcases hfits.cell c with e | hc
      · exact e
      · exact hs.carried f x c _ hf hx hc
    have hx' : (x, c) ∈ st.heap.closure f := by rwa [hfits.closure]
    have hframe := hframed.cell c
    rw [hcell] at hframe
    rcases hframe with e | ⟨⟨u, y, hu, hy⟩, g, f', hg, hl, hf'⟩
    · exact .inl e
    rw [hfits.closure] at hy
    have hp : renv.protected_ (.func f) = false := by
      by_contra hp
      exact hs.shared f u x y c g f' hf (by simpa using hp) hu hx hy hg (hmapped g f' hl)
    rcases hf' with e | hf'
    · exact .inr ⟨hp, g, f', hg, hl, e⟩
    -- The new version is itself replaced: the cell has one place.
    obtain ⟨f'', hl'⟩ := Option.ne_none_iff_exists'.mp hf'
    have honce := hs.once f x c g f' f'' hf hp hx hg (hmapped g f' hl) (hmapped f' f'' hl')
    have honce' : Once renv st.heap c :=
      ⟨by rw [hfits.closure]; exact honce.owner, by rw [hfits.closure]; exact honce.single⟩
    have hr := replaceAll_once honce' hp hx' hreplace
    rw [hcell, hg, renew_of_some (v := .func g) hl] at hr
    rcases hr with e | e
    · exact .inl (e.trans hg.symm)
    · exact .inr ⟨hp, g, f', hg, hl, e⟩
  · rw [show h'.get t k = st.heap.get t k from hframed.field t k ht]
    rcases hfits.get t k with e | hk
    · exact e
    · exact hs.stored t k _ ht hk

end

variable {env : Env} {text : Heap → Value → String} {h : Heap} {module_name : String} {obj : Value}
  {fuel : Nat} {done : Hotfixed}

theorem Env.setLogDebug_closure (env : Env) (h : Heap) :
    (env.setLogDebug h).closure = h.closure := by
  unfold Env.setLogDebug Heap.newindex
  cases h.index env.hotfix (.str "log_debug") with
  | none => rfl
  | some v => cases h.walk "__newindex" Heap.maxHops env.module (.str "log_debug") <;> rfl

theorem Env.setLogDebug_cell (env : Env) (h : Heap) : (env.setLogDebug h).cell = h.cell := by
  unfold Env.setLogDebug Heap.newindex
  cases h.index env.hotfix (.str "log_debug") with
  | none => rfl
  | some v => cases h.walk "__newindex" Heap.maxHops env.module (.str "log_debug") <;> rfl

/-- A new version that has nothing for what is old or protected: it is `Separate` where it is
compared with the module in use, and where it just takes its place, the place is not in a protected
table, or has that value already. The module updater has the `log_debug` of `hotfix`. -/
structure LeavesAlone (env : Env) (text : Heap → Value → String) (module_name : String)
    (obj : Value) (h : Heap) (existed : Nat → Prop) : Prop where
  quiet : Quiet env text module_name obj h
  log_debug : ∀ q, h.walk "__newindex" Heap.maxHops env.module (.str "log_debug") = some q →
    (env.protectSelf h).protected_ (.table q) = true →
    h.index env.hotfix (.str "log_debug") = some (h.get q (.str "log_debug"))
  compared : ∀ root,
    firstTask (env.updating text h) module_name obj (env.setLogDebug h) = some root →
    Separate (env.updating text h) (env.replacing h) (env.setLogDebug h) root existed
  replaced : firstTask (env.updating text h) module_name obj (env.setLogDebug h) = none →
    Silent (env.protectSelf h).toEnv (env.setLogDebug h) obj
      ((env.setLogDebug h).get env.loaded (.str module_name)) ∧
    ((env.protectSelf h).protected_ (.table env.loaded) = true →
      (env.setLogDebug h).get env.loaded (.str module_name) = obj)

namespace LeavesAlone

variable {existed : Nat → Prop}

/-- The first lines of a hotfix. -/
theorem get_setLogDebug (hl : LeavesAlone env text module_name obj h existed) {t : Nat} (k : Value)
    (ht : (env.protectSelf h).protected_ (.table t) = true) :
    (env.setLogDebug h).get t k = h.get t k := by
  obtain ⟨log_debug, q, hindex, hwalk, e⟩ := hl.quiet.setLogDebug
  rw [e, Heap.get_set]
  split <;> rename_i htk
  · obtain ⟨rfl, rfl⟩ := htk
    exact Option.some.inj (hindex.symm.trans (hl.log_debug t hwalk ht))
  · rfl

/-- What is undisturbed after the first lines. -/
theorem undisturbed_of_set (hl : LeavesAlone env text module_name obj h existed) {h' : Heap}
    {map : FuncMap}
    (hu : Undisturbed (env.protectSelf h).protected_ existed (env.setLogDebug h) h' map) :
    Undisturbed (env.protectSelf h).protected_ existed h h' map where
  closure := hu.closure.trans (env.setLogDebug_closure h)
  upvalue f x c hf hx := by
    rw [← env.setLogDebug_cell h]
    exact hu.upvalue f x c hf (by rwa [env.setLogDebug_closure])
  field t k ht := (hu.field t k ht).trans (hl.get_setLogDebug k ht)

/-- What is not compared is put in the place of the module. -/
theorem heap_of_not_compared (hl : LeavesAlone env text module_name obj h existed)
    (hobj : obj ≠ .nil)
    (hroot : firstTask (env.updating text h) module_name obj (env.setLogDebug h) = none)
    (hu : hotfixModuleWithObj env fuel module_name obj h = .ok done) :
    done.heap = (env.setLogDebug h).set env.loaded (.str module_name) obj := by
  obtain ⟨-, st, hupdate, e⟩ := map_of_not_compared hl.quiet hroot hu
  have hreplace := @updateLoadedModule_eq_replace _ _ _ _ _ fuel _ _ hroot hobj
    (Heap.index_of_get hl.quiet.loaded) (hl.replaced hroot).1
    (Heap.walk_of_get hl.quiet.loaded _ _)
  cases hupdate.symm.trans hreplace
  exact e

theorem undisturbed (hl : LeavesAlone env text module_name obj h existed) (hobj : obj ≠ .nil)
    (hu : hotfixModuleWithObj env fuel module_name obj h = .ok done) :
    Undisturbed done.protected_ existed h done.heap done.updated_function_map := by
  cases hroot : firstTask (env.updating text h) module_name obj (env.setLogDebug h) with
  | none =>
    obtain ⟨-, -, -, -, e⟩ := hotfixModuleWithObj_ok hl.quiet hu
    rw [e, hl.heap_of_not_compared hobj hroot hu]
    refine hl.undisturbed_of_set ⟨rfl, fun _ _ _ _ _ => .inl rfl, fun t k ht => ?_⟩
    rw [Heap.get_set]
    split <;> rename_i htk
    · obtain ⟨rfl, rfl⟩ := htk
      exact ((hl.replaced hroot).2 ht).symm
    · rfl
  | some root =>
    obtain ⟨st, htwo, hmap, e⟩ := twoSteps_of_compared hl.quiet hroot hu
    rw [e, hmap]
    exact hl.undisturbed_of_set ((hl.compared root hroot).undisturbed htwo.update htwo.replace)

/-- The module stays in `package.loaded`. -/
theorem get_loaded (hl : LeavesAlone env text module_name obj h existed) (hobj : obj ≠ .nil)
    (hu : hotfixModuleWithObj env fuel module_name obj h = .ok done) :
    done.heap.get env.loaded (.str module_name) ≠ .nil := by
  cases hroot : firstTask (env.updating text h) module_name obj (env.setLogDebug h) with
  | none =>
    rw [hl.heap_of_not_compared hobj hroot hu, Heap.get_set, if_pos ⟨rfl, rfl⟩]
    exact hobj
  | some root => exact get_loaded_of_compared hl.quiet hroot hu

end LeavesAlone

/-- The other side: on a path that the update covers, where nothing is carried against the old
data, a function that existed is left alone only if it has the old function's values already. -/
theorem Undisturbed.agrees {existed : Nat → Prop} {n₀ o₀ : Nat}
    (hq : Quiet env text module_name (.table n₀) h)
    (hroot : firstTask (env.updating text h) module_name (.table n₀) (env.setLogDebug h) =
      some (.table n₀ o₀ (.str module_name)))
    (hintact : Intact (env.updating text h) (env.setLogDebug h)
      (.table n₀ o₀ (.str module_name)) n₀ o₀)
    (hdistinct : Distinct (env.updating text h) (env.setLogDebug h)
      (.table n₀ o₀ (.str module_name)))
    (hcarries : Carries (env.updating text h) (env.setLogDebug h)
      (.table n₀ o₀ (.str module_name)))
    (hu : hotfixModuleWithObj env fuel module_name (.table n₀) h = .ok done)
    (hund : Undisturbed done.protected_ existed h done.heap done.updated_function_map) {f g : Nat}
    (hf : existed f)
    (hpath : Path (env.updating text h) (env.setLogDebug h) n₀ o₀ (.func f) (.func g))
    (hne : f ≠ g) (hg : (env.protectSelf h).protected_ (.func g) = false)
    (honly : ∀ f', Mapped (env.updating text h) (env.setLogDebug h)
      (.table n₀ o₀ (.str module_name)) g f' → f' = f) {x : String} {c c' : Nat}
    (hx : (x, c) ∈ h.closure f) (hx' : (x, c') ∈ h.closure g)
    (hty : (h.cell c').type ≠ .function) : h.cell c = h.cell c' := by
  obtain ⟨st, htwo, -⟩ := twoSteps_of_compared hq hroot hu
  obtain ⟨f', hl⟩ := Option.isSome_iff_exists.mp
    (AList.lookup_isSome.mpr ((run_covers hintact hdistinct htwo.update).1 f g hpath hne hg))
  obtain rfl := honly f' (mapped_run htwo.update g f' hl)
  have hcell : st.heap.cell c = h.cell c' := by
    have hs := run_since hcarries fuel _ _ st ⟨.root, .refl _ _ _⟩ htwo.update
    rcases hs.entries g f' hl with hl | hd
    · simp [State.start] at hl
    · have hkeeps := hd.keeps x c c' (by rwa [env.setLogDebug_closure])
        (by rwa [env.setLogDebug_closure])
      rw [env.setLogDebug_cell] at hkeeps
      exact hkeeps hty
  have hdone : done.heap.cell c = st.heap.cell c := replaceAll_cell (by rwa [hcell]) htwo.replace
  rcases hund.upvalue f' x c hf hx with e | ⟨-, g', f'', -, -, e⟩
  · rw [← e, hdone, hcell]
  · rw [hdone, hcell] at e
    rw [e] at hty
    exact absurd rfl hty

/-! ## A module of one function -/

/-- `_G` is empty, and the registry is `package.loaded` here. -/
def oneModule : Env where
  toEnv := .still 3
  hotfix := 4
  functions_replacer := 5
  orderNew new := new.keys
  orderNew_perm _ := .refl _
  globals := 6
  registry := 0
  func_map := 7

theorem oneModule_setLogDebug (old_value value : Value) :
    oneModule.setLogDebug (oneUpvalue old_value value) = oneUpvalue old_value value := by
  have hset : oneModule.setLogDebug (oneUpvalue old_value value) =
      (oneUpvalue old_value value).set 3 (.str "log_debug") (.func 3) := rfl
  have hfield : ((oneUpvalue old_value value).table 3).set (.str "log_debug") (.func 3) =
      (oneUpvalue old_value value).table 3 := rfl
  rw [hset, Heap.set, hfield, Function.update_eq_self]

theorem oneModule_first : firstTask (oneModule.updating (fun _ => Runtime.stillText)
      (oneUpvalue (.num 5) (.num 1))) "m" (.table 2)
      (oneModule.setLogDebug (oneUpvalue (.num 5) (.num 1))) =
    some (.table 2 1 (.str "m")) := by
  rw [oneModule_setLogDebug]
  exact ModuleUpdater.oneUpvalue_first _ rfl _ _

theorem oneModule_isolated {h' : Heap} {renv : RawUpdater.Env} {o : Value} {t : Nat} (ht : t ≠ 1)
    (hf : Fits renv (oneUpvalue (.num 5) (.num 1)) (.table 2 1 (.str "m")) h') :
    ¬ RawReplacer.Refers h' o (.table t) := by
  intro hr
  have hget : ∀ t k, h'.get t k = (oneUpvalue (.num 5) (.num 1)).get t k := fun t k =>
    (hf.get t k).resolve_right fun hs => oneUpvalue_may hs
  generalize hv : Value.table t = v at hr
  cases hr with
  | key hk =>
    subst hv
    rw [hget, oneUpvalue_get] at hk
    simp at hk
  | value hk =>
    rw [hget, oneUpvalue_get] at hv
    grind
  | metatable hm => rw [hf.metatable, oneUpvalue_metatable] at hm; cases hm
  | @upvalue u x c hx =>
    rcases (oneUpvalue_may (hf.mayCell c)).cell_num with e | ⟨n, e⟩ <;> rw [e] at hv <;> cases hv

theorem oneModule_quiet : Quiet oneModule (fun _ => Runtime.stillText) "m" (.table 2)
    (oneUpvalue (.num 5) (.num 1)) where
  self field hf := by
    simp only [Env.selfFields, List.mem_cons, List.not_mem_nil, or_false] at hf
    rcases hf with rfl | rfl | rfl | rfl | rfl | rfl | rfl | rfl | rfl <;> rfl
  log_debug := rfl
  loaded := by
    rw [oneModule_setLogDebug]
    exact Value.noConfusion
  fresh := by decide
  calm root hr := by
    cases oneModule_first.symm.trans hr
    rw [oneModule_setLogDebug]
    refine ⟨ModuleUpdater.oneUpvalue_calm rfl rfl fun h' v hf _ => ?_,
      ModuleUpdater.chains_of_sound oneUpvalue_sound⟩
    exact Runtime.tolstring_still fun t _ => (hf.metatable t).trans (oneUpvalue_metatable t)
  inert root hr h' hf := by
    cases oneModule_first.symm.trans hr
    rw [oneModule_setLogDebug] at hf
    exact FunctionsReplacer.inert_of_none
      (fun t => (hf.metatable t).trans (oneUpvalue_metatable t))
      (fun o => oneModule_isolated (by decide) hf) (by decide) (by decide)

theorem oneModule_starts (old_value value : Value) :
    Starts oneModule "m" (oneUpvalue old_value value) where
  loaded := rfl
  log_debug _ := ⟨.func 3, [], rfl, rfl⟩

theorem oneModule_separate (env : RawUpdater.Env) (renv : RawReplacer.Env) :
    Separate env renv (oneUpvalue (.num 5) (.num 1)) (.table 2 1 (.str "m")) (fun f => f = 1) where
  carried f x c w hf hx hc := by
    obtain ⟨-, rfl, -⟩ := oneUpvalue_mem hx
    obtain ⟨e, -⟩ := oneUpvalue_may hc
    subst e
    cases hf
  stored t k v _ hs := (oneUpvalue_may hs).elim
  aside t q g f v ht hq hl _ _ := by
    have e : t = q := by
      refine Relation.ReflTransGen.head_induction_on hl rfl fun ⟨m, hm, _⟩ _ _ => ?_
      rw [oneUpvalue_metatable] at hm
      cases hm
    rw [e, hq] at ht
    cases ht
  shared f u x y c g f' _ _ _ _ _ hg _ := by
    rcases (show OneUpvalue (.cell c (.func g)) from .inl hg.symm).cell_num with e | ⟨n, e⟩ <;>
      cases e
  once f x c g f' f'' _ _ _ hg _ _ := by
    rcases (show OneUpvalue (.cell c (.func g)) from .inl hg.symm).cell_num with e | ⟨n, e⟩ <;>
      cases e

theorem oneModule_returns : ∃ done loaded,
    hotfixModule oneModule 4 "m" (fun h => .ok (.table 2, h)) (oneUpvalue (.num 5) (.num 1)) =
      .ok (done, loaded) := by
  have hrun : ((hotfixModule oneModule 4 "m" (fun h => .ok (.table 2, h))
      (oneUpvalue (.num 5) (.num 1))).toOption.map fun r => r.1.heap.cell 2) = some (.num 5) := by
    decide +kernel
  obtain ⟨⟨done, loaded⟩, hu, -⟩ := Fuel.eq_ok_of_toOption hrun
  exact ⟨done, loaded, hu⟩

end SkynetHotfix.Hotfix
