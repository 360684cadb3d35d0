import SkynetHotfix.Class.Basic
import SkynetHotfix.Lib.Machine

/-!
# `hotfixFile`

`Hotfix:hotfixFile` of `common/Hotfix.lua`. `reload` is what both of its paths
do to one module; `objects_reloadAll` and `loaded_reloadAll` say what a whole
call leaves, by the tables that the files it gets to return (`given`).

`register()` of an instance binds its callbacks again, outside of what is
modelled here; all there is to know of it is whether it raises.
-/

namespace SkynetHotfix.Class

open Function (update)

/-- A module that is to be loaded again: its file, and the objects whose `register()` raises. -/
structure Reload where
  module : String
  file : File
  raises : Nat → Bool

namespace Service

/-- `if object[k] and type(object[k]) == "function" then object[k] = v end` -/
def install (w : Service) (k : String) (v : Value) (object : Nat) : Service :=
  match w.objects object with
  | none => w
  | some i =>
    if isFunction (i.resolve k) then
      { w with objects := update w.objects object (some { i with own := update i.own k (some v) }) }
    else w

/-- `更新类方法`: the first two loops, over the fields of the new module and its objects. -/
def updateMethods (w : Service) (t : Table) (objects : List Nat) : Service :=
  t.fields.entries.foldl (fun w kv => objects.foldl (fun w o => w.install kv.1 kv.2 o) w) w

/-- `object.register and type(object.register) == "function"` -/
def hasRegister (w : Service) (object : Nat) : Bool :=
  (w.objects object).any fun i => isFunction (i.resolve "register")

/-- `重新注册回调函数`: the last loop; `false` where a `register()` raises. -/
def registers (w : Service) (raises : Nat → Bool) (objects : List Nat) : Bool :=
  objects.all fun o => !(w.hasRegister o && raises o)

/-- One module in `hotfixFile`; `false` where it raises. A module of which no object was ever
registered has no list, and `pairs(nil)` raises. -/
def reload (w : Service) (r : Reload) : Service × Bool :=
  let w := { w with loaded := update w.loaded r.module none }
  match w.require r.module r.file with
  | (w, some (.table t)) =>
    match w.module_list r.module with
    | none => (w, false)
    | some objects =>
      let w := w.updateMethods t objects
      let w := { w with log := w.log ++ [Event.updated r.module t objects] }
      if w.registers r.raises objects then
        ({ w with loaded := update w.loaded r.module (some (.table t)) }, true)
      else (w, false)
  | (w, _) => (w, false)

/-- `package.loaded[name]`, where it is tested. -/
def isLoaded (w : Service) (name : String) : Bool := (w.loaded name).any Module.truthy

/-- The loop over `module_list`, in the order of `rs`. -/
def reloadAll (w : Service) : List Reload → Service × Bool
  | [] => (w, true)
  | r :: rs =>
    if w.isLoaded r.module then
      match w.reload r with
      | (w, true) => w.reloadAll rs
      | (w, false) => (w, false)
    else w.reloadAll rs

end Service

/-- A call of `hotfixFile`: for one module, or without a name for all in the order of `rs`. -/
inductive Call
  | single (r : Reload)
  | all (rs : List Reload)

def Call.reloads : Call → List Reload
  | .single r => [r]
  | .all rs => rs

/-- What a call returns: nothing, a boolean, or an error. -/
inductive Ret
  | nothing
  | value (b : Bool)
  | raised
deriving DecidableEq

namespace Service

/-- `Hotfix:hotfixFile` -/
def hotfixFile (w : Service) (call : Call) : Service × Ret :=
  if w.opened then
    match call with
    | .single r =>
      if w.isLoaded r.module then
        match w.reload r with
        | (w, true) => (w, .value true)
        | (w, false) => (w, .raised)
      else (w, .value false)
    | .all rs =>
      match w.reloadAll rs with
      | (w, true) => (w, .value true)
      | (w, false) => (w, .raised)
  else (w, .nothing)

end Service

/-- The reloads of a call are the modules of `module_list` in the order in which `pairs` meets
them. -/
def Call.Traverses (w : Service) : Call → Prop
  | .single _ => True
  | .all rs => (rs.map Reload.module).Nodup ∧
    ∀ m, m ∈ rs.map Reload.module ↔ w.module_list m ≠ none

/-- What happens to a service. -/
inductive Step
  | import_ (module_name : String) (file : File)
  | new (cls : Table) (ctor : (String → Option Value) → String → Option Value)
    (eq : Nat → Nat → Bool)
  | hotfixFile (call : Call)
  | setOpen (opened : Bool)
  | collect (object : Nat)

def Service.exec (w : Service) : Step → Service
  | .import_ module_name file => w.import_ module_name file
  | .new cls ctor eq => w.new cls ctor eq
  | .hotfixFile call => (w.hotfixFile call).1
  | .setOpen opened => { w with opened }
  | .collect object => w.collect object

/-- No two objects are equal but one and the same, as it is without `__eq`. -/
def unequal (_ _ : Nat) : Bool := false

/-- The steps a service can take. -/
def Legal (w : Service) : Step → Prop
  | .hotfixFile call => call.Traverses w
  | _ => True

/-! ## One reload -/

/-- What loading the file of the module `name` returns, if it makes the table `id`. -/
def File.value (name : String) (id : Nat) : File → Option Module
  | .raises => none
  | .returns v => some (v.getD (.other (.bool true)))
  | .class classname super body _ =>
    some (.table (body.foldl (fun t kv => t.set kv.1 kv.2) (class_ id name classname super)))

namespace Service

/-- What the file of the reload returns. -/
def gives (w : Service) (r : Reload) : Option Module := r.file.value r.module w.tables

/-- `objects` of the reload. -/
def registered (w : Service) (m : String) : List Nat := (w.module_list m).getD []

end Service

/-- What an update by the table `t` leaves of the answer `v` for `k`. -/
def current (k : String) (v : Option Value) (t : Table) : Option Value :=
  if isFunction v then (t.raw k).or v else v

/-- An instance after an update by the table `t`. -/
def Instance.after (i : Instance) (t : Table) : Instance :=
  { i with own := fun k => if isFunction (i.resolve k) then (t.raw k).or (i.own k) else i.own k }

theorem Instance.resolve_after (i : Instance) (t : Table) (k : String) :
    (i.after t).resolve k = current k (i.resolve k) t := by
  by_cases h : isFunction (i.resolve k) = true
  · simp only [current, h, if_true]
    simp only [resolve] at h
    simp only [resolve, after, h, if_true, Option.or_assoc]
  · rw [current, if_neg h, resolve, after, resolve]
    simp only [h]
    rfl

/-- What one field of the new module does to an instance. -/
def Instance.installed (i : Instance) (k : String) (v : Value) : Instance :=
  if isFunction (i.resolve k) then { i with own := update i.own k (some v) } else i

theorem Instance.installed_self (i : Instance) (k : String) (v : Value) :
    (i.installed k v).installed k v = i.installed k v := by
  unfold installed
  split
  · split <;> simp
  · rfl

theorem Instance.own_installed (i : Instance) (k k' : String) (v : Value) :
    (i.installed k v).own k' =
      if k' = k ∧ isFunction (i.resolve k) then some v else i.own k' := by
  unfold installed
  split <;> rename_i h
  · by_cases e : k' = k <;> simp [e, h]
  · simp [h]

theorem Instance.resolve_installed_of_ne (i : Instance) {k k' : String} (h : k' ≠ k) (v : Value) :
    (i.installed k v).resolve k' = i.resolve k' := by
  have hc : (i.installed k v).cls = i.cls := by unfold installed; split <;> rfl
  rw [resolve, own_installed, if_neg fun e => h e.1, hc, resolve]

theorem Instance.cls_foldl_installed (l : List (Sigma fun _ : String => Value)) (i : Instance) :
    (l.foldl (fun i kv => i.installed kv.1 kv.2) i).cls = i.cls := by
  induction l generalizing i with
  | nil => rfl
  | cons kv l ih => rw [List.foldl_cons, ih]; unfold installed; split <;> rfl

/-- All the fields of the new module, one after the other. -/
theorem Instance.foldl_installed (t : Table) (i : Instance) :
    t.fields.entries.foldl (fun i kv => i.installed kv.1 kv.2) i = i.after t := by
  have key : ∀ (l : List (Sigma fun _ : String => Value)) (i : Instance), l.NodupKeys → ∀ k,
      (l.foldl (fun i kv => i.installed kv.1 kv.2) i).own k =
        if isFunction (i.resolve k) then (l.dlookup k).or (i.own k) else i.own k := by
    intro l
    induction l with
    | nil => simp
    | cons kv l ih =>
      intro i h k
      obtain ⟨k₁, v₁⟩ := kv
      obtain ⟨hn, h⟩ := List.nodupKeys_cons.mp h
      rw [List.foldl_cons, ih _ h]
      by_cases e : k = k₁
      · subst e
        rw [List.dlookup_eq_none.mpr hn, List.dlookup_cons_eq, own_installed]
        simp only [Option.none_or, true_and, ite_self, Option.some_or]
      · have hne : ¬ (k = k₁ ∧ isFunction (i.resolve k₁) = true) := fun h => e h.1
        rw [resolve_installed_of_ne i e, own_installed, if_neg hne, List.dlookup_cons_ne l _ e]
  have hcls : (t.fields.entries.foldl (fun i kv => i.installed kv.1 kv.2) i).cls = i.cls :=
    cls_foldl_installed _ i
  have hown : ∀ k, (t.fields.entries.foldl (fun i kv => i.installed kv.1 kv.2) i).own k =
      if isFunction (i.resolve k) then (t.raw k).or (i.own k) else i.own k :=
    key t.fields.entries i t.fields.nodupKeys
  generalize t.fields.entries.foldl (fun i kv => i.installed kv.1 kv.2) i = i' at hcls hown
  obtain ⟨cls, own⟩ := i'
  simp only at hcls hown
  subst hcls
  simp only [after, mk.injEq, true_and]
  exact funext hown

namespace Service

theorem install_eq (w : Service) (k : String) (v : Value) (o : Nat) :
    w.install k v o =
      { w with objects := update w.objects o ((w.objects o).map (·.installed k v)) } := by
  unfold install
  cases h : w.objects o with
  | none =>
    have hu : update w.objects o none = w.objects := by rw [← h, Function.update_eq_self]
    simp only [Option.map_none, hu]
  | some i =>
    simp only [Option.map_some, Instance.installed]
    split
    · rfl
    · rw [← h, Function.update_eq_self]

theorem foldl_install (k : String) (v : Value) (objects : List Nat) (w : Service) :
    objects.foldl (fun w o => w.install k v o) w =
      { w with objects := fun o =>
          if o ∈ objects then (w.objects o).map (·.installed k v) else w.objects o } := by
  induction objects generalizing w with
  | nil => simp
  | cons o₁ objects ih =>
    rw [List.foldl_cons, ih, install_eq]
    simp only [Service.mk.injEq, true_and, and_true]
    funext o
    by_cases e : o = o₁
    · subst e
      cases w.objects o <;> simp [Instance.installed_self]
    · simp [e]

theorem updateMethods_eq (w : Service) (t : Table) (objects : List Nat) :
    w.updateMethods t objects =
      { w with objects := fun o =>
          if o ∈ objects then (w.objects o).map (·.after t) else w.objects o } := by
  have key : ∀ (l : List (Sigma fun _ : String => Value)) (w : Service),
      l.foldl (fun w kv => objects.foldl (fun w o => w.install kv.1 kv.2 o) w) w =
        { w with objects := fun o => if o ∈ objects then
            (w.objects o).map (l.foldl fun i kv => i.installed kv.1 kv.2) else w.objects o } := by
    intro l
    induction l with
    | nil => simp
    | cons kv l ih =>
      intro w
      rw [List.foldl_cons, ih, foldl_install]
      simp only [Service.mk.injEq, true_and, and_true]
      funext o
      by_cases e : o ∈ objects
      · cases w.objects o <;> simp [e]
      · simp [e]
  rw [updateMethods, key]
  simp only [Instance.foldl_installed]

/-- The instances after the reload. -/
def written (w : Service) (r : Reload) : Nat → Option Instance :=
  match w.gives r with
  | some (.table t) => fun o =>
    if o ∈ w.registered r.module then (w.objects o).map (·.after t) else w.objects o
  | _ => w.objects

/-- The reload does not raise: the file returns a table, an object has been registered for the
module, and no `register()` raises. -/
def completes (w : Service) (r : Reload) : Bool :=
  match w.gives r, w.module_list r.module with
  | some (.table t), some objects => objects.all fun o =>
    !((w.objects o).any (fun i => isFunction (current "register" (i.resolve "register") t)) &&
      r.raises o)
  | _, _ => false

/-- What the reload adds to the log. -/
def updates (w : Service) (r : Reload) : List Event :=
  match w.gives r, w.module_list r.module with
  | some (.table t), some objects => [.updated r.module t objects]
  | _, _ => []

/-- What the file makes of the number of tables. -/
def tablesAfter (w : Service) (r : Reload) : Nat :=
  match r.file with
  | .class .. => w.tables + 1
  | _ => w.tables

theorem hasRegister_updateMethods (w : Service) (t : Table) {objects : List Nat} {o : Nat}
    (h : o ∈ objects) : (w.updateMethods t objects).hasRegister o =
      (w.objects o).any fun i => isFunction (current "register" (i.resolve "register") t) := by
  rw [hasRegister, updateMethods_eq]
  simp only [h, if_true]
  cases w.objects o with
  | none => rfl
  | some i => simp only [Option.map_some, Option.any_some, Instance.resolve_after]

/-- `require` and `import` leave instances and what is registered alone. -/
theorem require_frame (w : Service) (m : String) (file : File) :
    (w.require m file).1.objects = w.objects ∧ (w.require m file).1.log = w.log ∧
      (w.require m file).1.module_list = w.module_list ∧
      (w.require m file).1.instances = w.instances := by
  unfold require
  split
  · exact ⟨rfl, rfl, rfl, rfl⟩
  · split <;> exact ⟨rfl, rfl, rfl, rfl⟩

theorem import_frame (w : Service) (m : String) (file : File) :
    (w.import_ m file).objects = w.objects ∧ (w.import_ m file).log = w.log ∧
      (w.import_ m file).module_list = w.module_list ∧
      (w.import_ m file).instances = w.instances := by
  have h := w.require_frame m file
  unfold import_
  generalize w.require m file = p at h ⊢
  split
  · split
    · exact h
    · exact h
  · exact h

/-- What a reload does, all in all. -/
theorem reload_eq (w : Service) (r : Reload) :
    w.reload r =
      ({ w with tables := w.tablesAfter r, loaded := update w.loaded r.module (w.gives r),
                objects := w.written r, log := w.log ++ w.updates r }, w.completes r) := by
  have hreq : ({ w with loaded := update w.loaded r.module none } : Service).require r.module r.file =
      ({ w with tables := w.tablesAfter r, loaded := update w.loaded r.module (w.gives r) },
        w.gives r) := by
    unfold require gives tablesAfter File.value
    simp only [Function.update_self, Option.filter_none, Function.update_idem, Option.or_none]
    cases r.file <;> rfl
  unfold reload
  dsimp only
  rw [hreq]
  unfold written completes updates registered
  cases hg : w.gives r with
  | none => simp
  | some v =>
    cases v with
    | other v => simp
    | table t =>
      dsimp only
      cases hl : w.module_list r.module with
      | none => simp
      | some objects =>
        have hr : ∀ w' : Service, w'.objects = (w.updateMethods t objects).objects →
            w'.registers r.raises objects = objects.all fun o =>
              !((w.objects o).any (fun i => isFunction (current "register" (i.resolve "register") t))
                && r.raises o) := by
          intro w' hw
          rw [registers, Bool.eq_iff_iff, List.all_eq_true, List.all_eq_true]
          refine forall₂_congr fun o ho => ?_
          rw [← hasRegister_updateMethods w t ho, hasRegister, hasRegister, hw]
        dsimp only
        rw [hr _ (by simp only [updateMethods_eq])]
        generalize (objects.all fun o => !((w.objects o).any
          (fun i => isFunction (current "register" (i.resolve "register") t)) && r.raises o)) = b
        cases b <;> simp [updateMethods_eq]

/-- What a call for one module does. -/
theorem hotfixFile_single (w : Service) (r : Reload) :
    w.hotfixFile (.single r) =
      if w.opened then
        if w.isLoaded r.module then
          ((w.reload r).1, if w.completes r then .value true else .raised)
        else (w, .value false)
      else (w, .nothing) := by
  simp only [hotfixFile, reload_eq]
  split
  · split
    · cases w.completes r <;> rfl
    · rfl
  · rfl

end Service

end SkynetHotfix.Class
