import SkynetHotfix.Class.Methods
import SkynetHotfix.Class.Registered

/-!
# Instances made through a class reference

`hotfixFile` replaces what `package.loaded` holds and the methods of live
instances; a class that another module has obtained from `import` is the table
it was. So a reference makes instances of the version that it is of: the one that
was loaded when `import` gave it, which after a hotfix and until the next is the one
that the hotfix installed (`reference_version`, `old_reference_makes_old`).
-/

namespace SkynetHotfix.Class

open Function (update)

/-- The steps that hotfix no file of the module. -/
def Leaves (module : String) (w : Service) : Step → Prop
  | .hotfixFile call => call.Traverses w ∧ ∀ r ∈ call.reloads, r.module ≠ module
  | _ => True

/-- `import` and `require` give what is loaded, without a look at the file. -/
theorem require_of_loaded {w : Service} {module : String} {t : Table}
    (h : w.loaded module = some (.table t)) (file : File) :
    w.require module file = (w, some (.table t)) := by
  unfold Service.require
  rw [h]
  rfl

theorem require_loaded {w : Service} {module : String} {t : Table}
    (h : w.loaded module = some (.table t)) (name : String) (file : File) :
    (w.require name file).1.loaded module = some (.table t) := by
  by_cases hn : name = module
  · subst hn
    rw [require_of_loaded h]
    exact h
  · have hn' : ¬ module = name := fun e => hn e.symm
    unfold Service.require
    split
    · exact h
    · split
      · exact h
      · simpa [hn'] using h
      · simpa [hn'] using h

/-- What is loaded for a module stays until the module is hotfixed. -/
theorem loaded_exec {w : Service} {module : String} {t : Table}
    (h : w.loaded module = some (.table t)) {s : Step} (hs : Leaves module w s) :
    (w.exec s).loaded module = some (.table t) := by
  cases s with
  | import_ name file =>
    have hr := require_loaded h name file
    show (w.import_ name file).loaded module = _
    unfold Service.import_
    generalize w.require name file = p at hr
    split
    · split
      · exact hr
      · exact hr
    · exact hr
  | new cls ctor eq =>
    show (w.new cls ctor eq).loaded module = _
    rw [(Service.new_frame cls ctor eq).2.2]
    exact h
  | hotfixFile call =>
    obtain ⟨ht, hne⟩ := hs
    show (w.hotfixFile call).1.loaded module = _
    by_cases hop : w.opened = true
    · rw [(Service.hotfixFile_of_open hop call).1]
      obtain ⟨hgiven, hkept⟩ := Service.loaded_reloadAll call.reloads w ht.nodup
      rw [hkept module ?_]
      · exact h
      intro hm
      obtain ⟨mv, hmv, he⟩ := List.mem_map.mp hm
      obtain ⟨r, hr, hrm⟩ := List.mem_map.mp (hgiven mv hmv).2
      exact hne r hr (hrm.trans he)
    · unfold Service.hotfixFile
      rw [if_neg hop]
      exact h
  | setOpen opened => exact h
  | collect object => exact h

/-- What `import` gives is loaded then. -/
theorem loaded_import {w : Service} {module : String} {file : File} {t : Table}
    (h : (w.require module file).2 = some (.table t)) :
    (w.import_ module file).loaded module = some (.table t) := by
  have hloaded : (w.require module file).1.loaded module = some (.table t) := by
    unfold Service.require at h ⊢
    split at h
    · rename_i v hv
      obtain ⟨hv, -⟩ := Option.filter_eq_some_iff.mp hv
      rw [hv]
      exact h
    · cases file with
      | raises => cases h
      | returns v =>
        dsimp only at h ⊢
        rw [Function.update_self]
        exact h
      | «class» classname super body plain =>
        dsimp only at h ⊢
        rw [Function.update_self]
        exact h
  unfold Service.import_
  generalize w.require module file = p at hloaded
  split
  · split
    · exact hloaded
    · exact hloaded
  · exact hloaded

/-- A new instance answers what its constructor has not set like its class. -/
theorem new_resolve (w : Service) (t : Table)
    (ctor : (String → Option Value) → String → Option Value) (eq : Nat → Nat → Bool) :
    ∃ i, (w.new t ctor eq).objects w.instances = some i ∧
      ∀ k, i.own k = none → i.resolve k = (Instance.fresh t).resolve k := by
  refine ⟨_, by rw [(Service.new_frame t ctor eq).1, Function.update_self], fun k hk => ?_⟩
  rw [Instance.resolve, hk]
  rfl

/-- After a hotfix of a module that returns true, and until the next one, `import` of the module
gives the version that it installed; what `import` gave at any time is the version that was loaded
then; and a new instance has the methods of the version that it is made through. -/
theorem reference_version {w w' : Service} {call : Call} {r : Reload} (ht : call.Traverses w)
    (hok : (w.hotfixFile call).2 = .value true) (hr : r ∈ call.reloads)
    (hl : w.isLoaded r.module = true)
    (hrun : Machine.Reach Service.exec (Leaves r.module) (w.hotfixFile call).1 w') :
    ∃ t', (∃ id ≥ w.tables, r.file.value r.module id = some (.table t')) ∧
      (∀ file, w'.require r.module file = (w', some (.table t'))) ∧
      (∀ (w₀ : Service) file₀ t₀, (w₀.require r.module file₀).2 = some (.table t₀) →
        (w₀.import_ r.module file₀).loaded r.module = some (.table t₀)) ∧
      ∀ t ctor eq, ∃ i, (w'.new t ctor eq).objects w'.instances = some i ∧
        ∀ k, i.own k = none → i.resolve k = (Instance.fresh t).resolve k := by
  have hop : w.opened = true := by
    by_contra hop
    unfold Service.hotfixFile at hok
    rw [if_neg hop] at hok
    cases hok
  obtain ⟨heq, hgoes, -⟩ := Service.hotfixFile_of_open hop call
  obtain ⟨t', hid, hloaded, -⟩ :=
    Service.updated_of_goes ht.nodup ((Service.reloadAll_goes _ _).mp (hgoes hok)) r hr hl
  rw [← heq] at hloaded
  have hw' : w'.loaded r.module = some (.table t') :=
    hrun.invariant hloaded fun _ s h hs => loaded_exec h hs
  exact ⟨t', hid, require_of_loaded hw', fun _ _ _ => loaded_import, new_resolve w'⟩

/-- The hero's class is hotfixed. -/
def heroUpdated : Service := (heroStart.hotfixFile (.single heroReload)).1

theorem reference_version_sample :
    (∀ file, heroUpdated.require "Hero" file = (heroUpdated, some (.table heroNew))) ∧
      ∃ i, (heroUpdated.new heroNew id unequal).objects heroUpdated.instances = some i ∧
        i.resolve "attack" = some (.func (.method 1)) := by
  obtain ⟨t', -, hreq, -, hnew⟩ := @reference_version heroStart heroUpdated (.single heroReload)
    heroReload trivial (by decide +kernel) List.mem_cons_self (by decide +kernel) .init
  have hloaded : (heroUpdated.require "Hero" .raises).2 = some (.table heroNew) := rfl
  obtain rfl : heroNew = t' := by
    simpa using hloaded.symm.trans (congrArg Prod.snd (hreq .raises))
  obtain ⟨i, hi, hk⟩ := hnew heroNew id unequal
  have hown : ((heroUpdated.new heroNew id unequal).objects heroUpdated.instances).bind
      (·.own "attack") = none := by decide +kernel
  rw [hi] at hown
  exact ⟨hreq, i, hi, (hk "attack" hown).trans (by decide +kernel)⟩

/-- The class that the hero was imported as. -/
def heroOld : Table := (class_ 0 "Hero" "Hero" none).set "attack" (.func (.method 0))

/-- Through the reference from before the hotfix a new instance has the old method. -/
theorem old_reference_makes_old :
    (Service.start.require "Hero" (.class "Hero" none [("attack", .func (.method 0))]
        (by decide))).2 = some (.table heroOld) ∧
      (heroStart.hotfixFile (.single heroReload)).2 = .value true ∧
      heroUpdated.loaded "Hero" = some (.table heroNew) ∧
      ((heroUpdated.new heroOld id unequal).objects heroUpdated.instances).bind
        (·.resolve "attack") ≠
          (Instance.fresh heroNew).resolve "attack" :=
  ⟨rfl, by decide +kernel, rfl, by decide +kernel⟩

end SkynetHotfix.Class
