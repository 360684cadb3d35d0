import SkynetHotfix.Class.Hotfix

/-!
# When `hotfixFile` is all or nothing

`hotfixFile` clears `package.loaded` before it runs the new file, and writes to
the instances before it runs the code of theirs that may raise. So it leaves a
half-done update wherever the file does not return a table, no object was ever
registered for the module, or a `register()` raises: `all_or_nothing_iff` says
for every state and every call, of one module or of all, that this is the
exact condition, but for an update that has nothing to change (`Idle`).
-/

namespace SkynetHotfix.Class

open Function (update)

namespace Service

/-- What the files return that a call gets to, with their modules. -/
def given : Service → List Reload → List (String × Option Module)
  | _, [] => []
  | w, r :: rs =>
    if w.isLoaded r.module then
      (r.module, w.gives r) :: if w.completes r then (w.reload r).1.given rs else []
    else w.given rs

/-- No reload of the call raises. -/
def Goes : Service → List Reload → Prop
  | _, [] => True
  | w, r :: rs =>
    if w.isLoaded r.module then w.completes r = true ∧ (w.reload r).1.Goes rs else w.Goes rs

/-- The tables among `given` that are of a module for which the object is registered. -/
def tablesFor (w : Service) (o : Nat) (given : List (String × Option Module)) : List Table :=
  given.filterMap fun
    | (m, some (.table t)) => if o ∈ w.registered m then some t else none
    | _ => none

/-- Every file that the call gets to returns what is loaded already, and all functions of these
modules are in the instances already. -/
def Idle (w : Service) (rs : List Reload) : Prop :=
  (∀ mv ∈ w.given rs, mv.2 = w.loaded mv.1) ∧
    ∀ o i, w.objects o = some i → (w.tablesFor o (w.given rs)).foldl Instance.after i = i

/-- Every module of the call is loaded anew, and its registered objects answer what they answered
with a function as their new modules say. -/
def Updated (w w' : Service) (rs : List Reload) : Prop :=
  ∀ r ∈ rs, w.isLoaded r.module → ∃ t, (∃ id ≥ w.tables, r.file.value r.module id = some (.table t)) ∧
    w'.loaded r.module = some (.table t) ∧ ∀ o ∈ w.registered r.module, ∀ i, w.objects o = some i →
      ∃ i', w'.objects o = some i' ∧ ∀ k, isFunction (i.resolve k) → t.raw k ≠ none →
        ∃ r' ∈ rs, o ∈ w.registered r'.module ∧
          ∃ t', w'.loaded r'.module = some (.table t') ∧ i'.resolve k = t'.raw k

/-- `package.loaded`, the registry and every instance are as they were. -/
def Unchanged (w w' : Service) : Prop :=
  w'.loaded = w.loaded ∧ w'.module_list = w.module_list ∧ w'.objects = w.objects

def AllOrNothing (w : Service) (call : Call) : Prop :=
  ((w.hotfixFile call).2 = .value true ∧ w.Updated (w.hotfixFile call).1 call.reloads) ∨
    w.Unchanged (w.hotfixFile call).1

end Service

/-! ## What a whole call leaves -/

theorem resolve_foldl_after (k : String) (ts : List Table) (i : Instance) :
    (ts.foldl Instance.after i).resolve k = ts.foldl (current k) (i.resolve k) := by
  induction ts generalizing i with
  | nil => rfl
  | cons t ts ih => rw [List.foldl_cons, List.foldl_cons, ih, Instance.resolve_after]

theorem cls_foldl_after (ts : List Table) (i : Instance) : (ts.foldl Instance.after i).cls = i.cls := by
  induction ts generalizing i with
  | nil => rfl
  | cons t ts ih => exact ih _

theorem foldl_current (k : String) (ts : List Table) (v : Option Value) :
    (ts.foldl (current k) v = v ∧ (isFunction v → ∀ t ∈ ts, t.raw k = none)) ∨
      ∃ t ∈ ts, ts.foldl (current k) v = t.raw k := by
  induction ts generalizing v with
  | nil => exact .inl ⟨rfl, by simp⟩
  | cons t ts ih =>
    rw [List.foldl_cons]
    rcases ih (current k v t) with ⟨h, hn⟩ | ⟨t', ht', h⟩
    · rw [h]
      by_cases hv : isFunction v = true
      · rw [current, if_pos hv] at hn ⊢
        cases hr : t.raw k with
        | none =>
          rw [hr, Option.none_or] at hn
          refine .inl ⟨Option.none_or, fun _ t' ht' => ?_⟩
          rcases List.mem_cons.mp ht' with rfl | ht'
          · exact hr
          · exact hn hv t' ht'
        | some v' => exact .inr ⟨t, List.mem_cons_self, by rw [hr, Option.some_or]⟩
      · rw [current, if_neg hv]
        exact .inl ⟨rfl, fun hf => absurd hf hv⟩
    · exact .inr ⟨t', List.mem_cons_of_mem _ ht', h⟩

namespace Service

variable {w : Service} {rs : List Reload}

@[simp] theorem reload_registered (w : Service) (r : Reload) (m : String) :
    (w.reload r).1.registered m = w.registered m := by
  rw [reload_eq]; rfl

@[simp] theorem reload_module_list (w : Service) (r : Reload) :
    (w.reload r).1.module_list = w.module_list := by
  rw [reload_eq]

@[simp] theorem reload_instances (w : Service) (r : Reload) :
    (w.reload r).1.instances = w.instances := by
  rw [reload_eq]

theorem reload_loaded (w : Service) (r : Reload) :
    (w.reload r).1.loaded = update w.loaded r.module (w.gives r) := by
  rw [reload_eq]

theorem reload_tables_le (w : Service) (r : Reload) : w.tables ≤ (w.reload r).1.tables := by
  rw [reload_eq]
  simp only [tablesAfter]
  split <;> omega

theorem reload_isLoaded (w : Service) (r : Reload) {m : String} (h : m ≠ r.module) :
    (w.reload r).1.isLoaded m = w.isLoaded m := by
  rw [isLoaded, reload_loaded, Function.update_of_ne h, isLoaded]

theorem reload_objects (w : Service) (r : Reload) (o : Nat) :
    (w.reload r).1.objects o =
      (w.objects o).map fun i => (w.tablesFor o [(r.module, w.gives r)]).foldl Instance.after i := by
  rw [reload_eq]
  simp only [written, tablesFor, List.filterMap_cons, List.filterMap_nil]
  rcases w.gives r with _ | _ | v
  · simp
  · simp only
    split <;> simp
  · simp

theorem tablesFor_cons (w : Service) (o : Nat) (mv : String × Option Module)
    (given : List (String × Option Module)) :
    w.tablesFor o (mv :: given) = w.tablesFor o [mv] ++ w.tablesFor o given := by
  rw [tablesFor, ← List.singleton_append, List.filterMap_append]; rfl

theorem reloadAll_cons (w : Service) (r : Reload) (rs : List Reload) :
    w.reloadAll (r :: rs) =
      if w.isLoaded r.module then
        if w.completes r then (w.reload r).1.reloadAll rs else ((w.reload r).1, false)
      else w.reloadAll rs := by
  rw [reloadAll]
  simp only [reload_eq]
  cases w.completes r <;> rfl

theorem reloadAll_module_list (rs : List Reload) (w : Service) :
    (w.reloadAll rs).1.module_list = w.module_list := by
  induction rs generalizing w with
  | nil => rfl
  | cons r rs ih =>
    rw [reloadAll_cons]
    split
    · split
      · rw [ih, reload_module_list]
      · exact reload_module_list w r
    · exact ih w

theorem reloadAll_instances (rs : List Reload) (w : Service) :
    (w.reloadAll rs).1.instances = w.instances := by
  induction rs generalizing w with
  | nil => rfl
  | cons r rs ih =>
    rw [reloadAll_cons]
    split
    · split
      · rw [ih, reload_instances]
      · exact reload_instances w r
    · exact ih w

theorem reloadAll_goes (rs : List Reload) (w : Service) : (w.reloadAll rs).2 = true ↔ w.Goes rs := by
  induction rs generalizing w with
  | nil => simp [reloadAll, Goes]
  | cons r rs ih =>
    rw [reloadAll_cons, Goes]
    split
    · split <;> rename_i hc
      · rw [ih, and_iff_right hc]
      · simp [hc]
    · exact ih w

/-- The instances after a call. -/
theorem objects_reloadAll (rs : List Reload) (w : Service) (o : Nat) :
    (w.reloadAll rs).1.objects o =
      (w.objects o).map fun i => (w.tablesFor o (w.given rs)).foldl Instance.after i := by
  induction rs generalizing w with
  | nil => simp [reloadAll, given, tablesFor]
  | cons r rs ih =>
    rw [reloadAll_cons, given]
    split
    · split
      · have ht : ∀ g, (w.reload r).1.tablesFor o g = w.tablesFor o g := fun g => by
          simp only [tablesFor, reload_registered]
        rw [ih, reload_objects, ht, Option.map_map, tablesFor_cons w o _ (given _ rs)]
        simp only [List.foldl_append]
        rfl
      · exact reload_objects w r o
    · exact ih w

/-- `package.loaded` after a call. -/
theorem loaded_reloadAll (rs : List Reload) (w : Service) (h : (rs.map Reload.module).Nodup) :
    (∀ mv ∈ w.given rs, (w.reloadAll rs).1.loaded mv.1 = mv.2 ∧ mv.1 ∈ rs.map Reload.module) ∧
      ∀ m, m ∉ (w.given rs).map Prod.fst → (w.reloadAll rs).1.loaded m = w.loaded m := by
  induction rs generalizing w with
  | nil => simp [given, reloadAll]
  | cons r rs ih =>
    obtain ⟨hn, hnd⟩ := List.nodup_cons.mp h
    rw [reloadAll_cons, given]
    split
    · split
      · obtain ⟨h₁, h₂⟩ := ih (w.reload r).1 hnd
        have hr : r.module ∉ ((w.reload r).1.given rs).map Prod.fst := fun hm => by
          obtain ⟨mv, hmv, e⟩ := List.mem_map.mp hm
          exact hn (e ▸ (h₁ mv hmv).2)
        refine ⟨fun mv hm => ?_, fun m hm => ?_⟩
        · rcases List.mem_cons.mp hm with rfl | hm
          · rw [h₂ _ hr, reload_loaded, Function.update_self]
            exact ⟨rfl, List.mem_cons_self⟩
          · exact ⟨(h₁ mv hm).1, List.mem_cons_of_mem _ (h₁ mv hm).2⟩
        · rw [List.map_cons, List.mem_cons, not_or] at hm
          rw [h₂ m hm.2, reload_loaded, Function.update_of_ne hm.1]
      · refine ⟨fun mv hm => ?_, fun m hm => ?_⟩
        · rw [List.mem_singleton.mp hm, reload_loaded, Function.update_self]
          exact ⟨rfl, List.mem_cons_self⟩
        · rw [reload_loaded, Function.update_of_ne (by simpa using hm)]
    · obtain ⟨h₁, h₂⟩ := ih w hnd
      exact ⟨fun mv hm => ⟨(h₁ mv hm).1, List.mem_cons_of_mem _ (h₁ mv hm).2⟩, h₂⟩

/-- Every module of a call that goes through is given a table by its file. -/
theorem given_of_goes (rs : List Reload) (w : Service) (h : (rs.map Reload.module).Nodup)
    (hg : w.Goes rs) {r : Reload} (hr : r ∈ rs) (hl : w.isLoaded r.module = true) :
    ∃ t, (∃ id ≥ w.tables, r.file.value r.module id = some (.table t)) ∧
      (r.module, some (.table t)) ∈ w.given rs := by
  induction rs generalizing w with
  | nil => simp at hr
  | cons r₁ rs ih =>
    obtain ⟨hn, hnd⟩ := List.nodup_cons.mp h
    rw [Goes] at hg
    rw [given]
    by_cases hl₁ : w.isLoaded r₁.module = true
    · rw [if_pos hl₁] at hg ⊢
      obtain ⟨hc, hg⟩ := hg
      rw [if_pos hc]
      rcases List.mem_cons.mp hr with rfl | hr
      · unfold completes at hc
        split at hc
        · rename_i t _ ht _
          exact ⟨t, ⟨w.tables, Nat.le_refl _, ht⟩, by rw [ht]; exact List.mem_cons_self⟩
        · cases hc
      · have hne : r.module ≠ r₁.module := fun e => hn (e ▸ List.mem_map_of_mem hr)
        obtain ⟨t, ⟨id, hid, hv⟩, hm⟩ := ih _ hnd hg hr (by rwa [reload_isLoaded w r₁ hne])
        exact ⟨t, ⟨id, Nat.le_trans (reload_tables_le w r₁) hid, hv⟩, List.mem_cons_of_mem _ hm⟩
    · rw [if_neg hl₁] at hg ⊢
      rcases List.mem_cons.mp hr with rfl | hr
      · exact absurd hl hl₁
      · exact ih w hnd hg hr hl

/-- A call that goes through updates all that it should. -/
theorem updated_of_goes (h : (rs.map Reload.module).Nodup) (hg : w.Goes rs) :
    w.Updated (w.reloadAll rs).1 rs := by
  obtain ⟨hl, -⟩ := loaded_reloadAll rs w h
  intro r hr hlr
  obtain ⟨t, hid, hm⟩ := given_of_goes rs w h hg hr hlr
  refine ⟨t, hid, (hl _ hm).1, fun o ho i hi =>
    ⟨(w.tablesFor o (w.given rs)).foldl Instance.after i, ?_, fun k hf hk => ?_⟩⟩
  · rw [objects_reloadAll, hi, Option.map_some]
  · rw [resolve_foldl_after]
    have hmt : t ∈ w.tablesFor o (w.given rs) :=
      List.mem_filterMap.mpr ⟨_, hm, by simp [ho]⟩
    obtain ⟨t', ht', e⟩ := (foldl_current k (w.tablesFor o (w.given rs)) (i.resolve k)).resolve_left
      fun hn => hk (hn.2 hf t hmt)
    obtain ⟨⟨m, v⟩, hmv, hv⟩ := List.mem_filterMap.mp ht'
    obtain ⟨hlm, hmem⟩ := hl _ hmv
    obtain ⟨r', hr', rfl⟩ := List.mem_map.mp hmem
    split at hv
    · rename_i hmv'
      cases hmv'
      split at hv <;> cases hv
      rename_i ho'
      exact ⟨r', hr', ho', t', hlm, e⟩
    · cases hv

end Service

/-- A call of an open `hotfixFile` that finds its module is the loop over its reloads. -/
theorem Service.hotfixFile_of_open {w : Service} (h : w.opened = true) (call : Call) :
    (w.hotfixFile call).1 = (w.reloadAll call.reloads).1 ∧
      ((w.hotfixFile call).2 = .value true → (w.reloadAll call.reloads).2 = true) ∧
      ((w.reloadAll call.reloads).2 = true →
        (w.hotfixFile call).2 = .value true ∨ (w.hotfixFile call).1 = w) := by
  cases call with
  | single r =>
    rw [hotfixFile_single, if_pos h, Call.reloads, reloadAll_cons]
    split
    · simp only [reloadAll]
      split <;> simp
    · simp [reloadAll]
  | all rs =>
    simp only [hotfixFile, if_pos h, Call.reloads]
    generalize w.reloadAll rs = out
    obtain ⟨w', b⟩ := out
    cases b <;> simp

theorem Call.Traverses.nodup {w : Service} {call : Call} (h : call.Traverses w) :
    (call.reloads.map Reload.module).Nodup := by
  cases call with
  | single r => simp [Call.reloads]
  | all rs => exact h.1

/-- `hotfixFile` is all or nothing if and only if it is closed, or no reload of the call raises
(each file returns a table, an object was registered for its module, and no `register()` raises),
or the files it gets to return what is loaded and installed already. -/
theorem all_or_nothing_iff (w : Service) (call : Call) (h : call.Traverses w) :
    w.AllOrNothing call ↔ (w.opened = true → w.Goes call.reloads ∨ w.Idle call.reloads) := by
  have hnd := h.nodup
  by_cases ho : w.opened = true
  swap
  · refine iff_of_true (.inr ?_) fun h => absurd h ho
    simp [Service.Unchanged, Service.hotfixFile, ho]
  obtain ⟨hw, hret, hret'⟩ := Service.hotfixFile_of_open ho call
  obtain ⟨hl, hl'⟩ := Service.loaded_reloadAll call.reloads w hnd
  simp only [ho, forall_const]
  constructor
  · rintro (⟨hr, -⟩ | ⟨h₁, -, h₃⟩)
    · exact .inl ((Service.reloadAll_goes _ _).mp (hret hr))
    · refine .inr ⟨fun mv hm => ?_, fun o i hi => ?_⟩
      · rw [← (hl mv hm).1, ← hw, h₁]
      · have := Service.objects_reloadAll call.reloads w o
        rw [← hw, h₃, hi, Option.map_some, Option.some.injEq] at this
        exact this.symm
  · rintro (hg | ⟨h₁, h₂⟩)
    · rcases hret' ((Service.reloadAll_goes _ _).mpr hg) with hr | hr
      · exact .inl ⟨hr, hw ▸ Service.updated_of_goes hnd hg⟩
      · exact .inr (by rw [hr]; exact ⟨rfl, rfl, rfl⟩)
    · refine .inr ⟨?_, ?_, ?_⟩ <;> rw [hw]
      · funext m
        by_cases hm : m ∈ (w.given call.reloads).map Prod.fst
        · obtain ⟨mv, hmv, rfl⟩ := List.mem_map.mp hm
          rw [(hl mv hmv).1, h₁ mv hmv]
        · exact hl' m hm
      · exact Service.reloadAll_module_list _ _
      · funext o
        rw [Service.objects_reloadAll]
        cases hi : w.objects o with
        | none => rfl
        | some i => rw [Option.map_some, h₂ o i hi]

/-- A module with one live instance. -/
def roomStart : Service :=
  (Service.start.exec (.import_ "Room" (.class "Room" none [("enter", .func (.method 0))]
    (by decide)))).exec
    (.new ((class_ 0 "Room" "Room" none).set "enter" (.func (.method 0))) id unequal)

theorem roomStart_module_list (m : String) :
    m ∈ ["Room"] ↔ roomStart.module_list m ≠ none := by
  have h : roomStart.module_list = update (fun _ => none) "Room" (some [0]) := rfl
  rw [h, List.mem_singleton]
  by_cases e : m = "Room" <;> simp [e]

/-- A new version of its file. -/
def roomReload : Reload :=
  ⟨"Room", .class "Room" none [("enter", .func (.method 1))] (by decide), fun _ => false⟩

/-- A call for all modules. -/
theorem all_or_nothing_iff_sample : roomStart.AllOrNothing (.all [roomReload]) :=
  (all_or_nothing_iff roomStart (.all [roomReload]) ⟨by decide, roomStart_module_list⟩).mpr fun _ =>
    .inl ((Service.reloadAll_goes _ _).mp (by decide +kernel))

/-- A file that does not compile leaves its module unloaded. -/
theorem raises_unloads :
    ¬ ∀ w : Service, Machine.Reach Service.exec Legal Service.start w → ∀ call : Call,
      call.Traverses w → (∀ r ∈ call.reloads, w.isLoaded r.module) → w.AllOrNothing call := by
  intro h
  have hr : Machine.Reach Service.exec Legal Service.start roomStart :=
    .step _ (.step _ .init trivial) trivial
  rcases h roomStart hr (.single ⟨"Room", .raises, fun _ => false⟩) trivial
    (by decide +kernel) with ⟨hret, -⟩ | ⟨hl, -⟩
  · exact absurd hret (by decide +kernel)
  · exact absurd (congrArg Option.isSome (congrFun hl "Room")) (by decide +kernel)

end SkynetHotfix.Class
