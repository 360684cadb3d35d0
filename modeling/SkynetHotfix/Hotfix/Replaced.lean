import SkynetHotfix.Hotfix.Undisturbed
import SkynetHotfix.RawReplacer.Replaced

/-!
# Old functions after a hotfix

After a hotfix the new module object, `_G` and the registry should lead to no
old function, but the replacer does not go into the functions that it puts in:
what only these lead to, such as the old tables that the update has given them
as upvalues, keeps its old functions (`nested_stays_old`).

What is known of the first step, from the heap before it, is an `Outcome`.
`old_functions_replaced` says that no old function is left where every outcome
is complete for the second step; where there is one outcome only
(`Determined`), in a plain heap, it is the case only there.
-/

namespace SkynetHotfix.Hotfix

open Lua RawUpdater
open ModuleUpdater (State index_of_isSome)
open FunctionsReplacer (FuncMap newVersion)
open RawReplacer (Refers From Reach Replacement)

/-- What an update that starts at `root` may leave: a heap that it may make of `h`, and a map with
entries that it may make. Where it carries values without conflict, the new functions of the map
have the upvalues of the old; where it covers its paths, the map has the old functions on them. -/
structure Outcome (env : RawUpdater.Env) (h : Heap) (root : Task) (h' : Heap) (map : FuncMap) :
    Prop where
  fits : Fits env h root h'
  mapped : ∀ g f, map.lookup g = some f → Mapped env h root g f
  keeps : Carries env h root → ∀ g f, map.lookup g = some f → KeepsUpvalues h f g h'
  covers : ∀ n₀ o₀ name, root = .table n₀ o₀ name → Intact env h root n₀ o₀ →
    Distinct env h root → ∀ f g, Path env h n₀ o₀ (.func f) (.func g) → f ≠ g →
    env.protected_ (.func g) = false → g ∈ map

section

variable {env : RawUpdater.Env} {h : Heap} {root : Task}

theorem outcome_run {fuel : Nat} {st : State}
    (hr : Fuel.run (RawUpdater.body env) fuel root (State.start h) = .ok st) :
    Outcome env h root st.heap st.updated_func_map where
  fits := fits_run hr
  mapped := mapped_run hr
  keeps C := (keeps_of_carries C hr).1
  covers n₀ o₀ name e hi hd := by
    subst e
    exact (run_covers hi hd hr).1

/-- There is one outcome, as far as objects refer to each other. -/
def Determined (env : RawUpdater.Env) (h : Heap) (root : Task) : Prop :=
  ∀ h₁ h₂ map₁ map₂, Outcome env h root h₁ map₁ → Outcome env h root h₂ map₂ →
    (∀ t k, h₁.get t k = h₂.get t k) ∧ (∀ c, h₁.cell c = h₂.cell c) ∧
    ∀ g, map₁.lookup g = map₂.lookup g

end

section

variable {renv : RawReplacer.Env} {obj : Value} {h₁ h₂ : Heap} {map₁ map₂ : FuncMap}

/-- Two heaps whose objects refer to each other in the same way. -/
structure Alike (h₁ h₂ : Heap) : Prop where
  closure : h₁.closure = h₂.closure
  metatable : ∀ t, h₁.metatable t = h₂.metatable t
  get : ∀ t k, h₁.get t k = h₂.get t k
  cell : ∀ c, h₁.cell c = h₂.cell c

theorem Alike.symm (ha : Alike h₁ h₂) : Alike h₂ h₁ :=
  ⟨ha.closure.symm, fun t => (ha.metatable t).symm, fun t k => (ha.get t k).symm,
    fun c => (ha.cell c).symm⟩

theorem Alike.refers (ha : Alike h₁ h₂) {o r : Value} (hr : Refers h₁ o r) : Refers h₂ o r := by
  cases hr with
  | key hk =>
    rw [ha.get] at hk
    exact .key hk
  | value hk =>
    rw [ha.get] at hk ⊢
    exact .value hk
  | metatable hm =>
    rw [ha.metatable] at hm
    exact .metatable hm
  | upvalue hx =>
    rw [ha.closure] at hx
    rw [ha.cell]
    exact .upvalue hx

theorem from_mono {next next' : Value → Value → Prop} (hn : ∀ o r, next o r → next' o r) {o : Value}
    (ho : From renv obj next o) : From renv obj next' o := by
  induction ho with
  | root hm hp => exact .root hm hp
  | step _ hr hp ih => exact .step ih (hn _ _ hr) hp

theorem newVersion_congr (hmap : ∀ g, map₁.lookup g = map₂.lookup g) (v : Value) :
    newVersion map₁ v = newVersion map₂ v := by
  cases v with
  | func g => exact hmap g
  | _ => rfl

/-- What is complete for the second step depends on the references only. -/
theorem Alike.complete (ha : Alike h₁ h₂) (hmap : ∀ g, map₁.lookup g = map₂.lookup g)
    (C : Replacement.Complete ⟨renv, map₁, obj, h₁⟩) :
    Replacement.Complete ⟨renv, map₂, obj, h₂⟩ := by
  have hnew := newVersion_congr hmap
  have hold : ∀ {v}, Replacement.Old ⟨renv, map₂, obj, h₂⟩ v →
      Replacement.Old ⟨renv, map₁, obj, h₁⟩ v := fun {v} ho => (hnew v).trans_ne ho
  have hold' : ∀ {v}, Replacement.Old ⟨renv, map₁, obj, h₁⟩ v →
      Replacement.Old ⟨renv, map₂, obj, h₂⟩ v := fun {v} ho => (hnew v).symm.trans_ne ho
  have hrenew : ∀ v, Replacement.renew ⟨renv, map₁, obj, h₁⟩ v =
      Replacement.renew ⟨renv, map₂, obj, h₂⟩ v := fun v => by
    rw [Replacement.renew, Replacement.renew, FunctionsReplacer.renew, FunctionsReplacer.renew,
      hnew]
  have hafter : ∀ {o}, Replacement.After ⟨renv, map₂, obj, h₂⟩ o →
      Replacement.After ⟨renv, map₁, obj, h₁⟩ o := fun ho =>
    from_mono (fun _ _ h => by
      obtain ⟨r₀, hr, e⟩ := h
      exact ⟨r₀, ha.symm.refers hr, e.trans (hrenew r₀).symm⟩) ho
  have hvisits : ∀ {o}, Replacement.Visits ⟨renv, map₁, obj, h₁⟩ o →
      Replacement.Visits ⟨renv, map₂, obj, h₂⟩ o := fun ho =>
    from_mono (fun _ _ h => ⟨ha.refers h.1, fun ho => h.2 (hold ho)⟩) ho
  refine ⟨fun o g f ho hr hl hf => ?_, fun t r ht hr ho => ?_, fun u x c hu hx ho => ?_⟩
  · exact C.apart o g f (hafter ho) (ha.symm.refers hr) ((hmap g).trans hl) (hold hf)
  · exact hvisits (C.tables t r (hafter ht) (ha.symm.refers hr) (hold ho))
  · have hx₁ : (x, c) ∈ h₁.closure u := ha.closure ▸ hx
    have ho₁ : Replacement.Old ⟨renv, map₁, obj, h₁⟩ (h₁.cell c) := (ha.cell c).symm ▸ hold ho
    obtain ⟨u', x', hv, hx'⟩ := C.cells u x c (hafter hu) hx₁ ho₁
    exact ⟨u', x', hvisits hv, ha.closure ▸ hx'⟩

end

/-- No old function can be reached after a hotfix. -/
def Replaced (renv : RawReplacer.Env) (obj : Value) (done : Hotfixed) : Prop :=
  ∀ o r, Reach renv obj done.heap o → Refers done.heap o r →
    newVersion done.updated_function_map r = none

theorem replaced_of_empty {renv : RawReplacer.Env} {obj : Value} {done : Hotfixed}
    (he : done.updated_function_map = ∅) : Replaced renv obj done := by
  intro o r _ _
  rw [he]
  cases r <;> rfl

/-- The call of `replace_all` for an outcome. -/
def replacement (env : Env) (h : Heap) (obj : Value) (h' : Heap) (map : FuncMap) : Replacement :=
  ⟨env.replacing h, map, obj, h'⟩

variable {env : Env} {text : Heap → Value → String} {module_name : String} {h : Heap} {obj : Value}
  {fuel : Nat} {done : Hotfixed} {loaded : Value}

/-- The hotfix of a loaded module, if it compares. -/
theorem hotfixModule_compared {chunk : Heap → Result (Value × Heap)} {h₀ : Heap} {was : Value}
    {root : Task} (hstarts : Starts env module_name h₀)
    (hwas : h₀.index env.loaded (.str module_name) = some was) (htrue : was.truthy = true)
    (hc : chunk h₀ = .ok (obj, h)) (hq : Quiet env text module_name (moduleObj obj) h)
    (hroot : firstTask (env.updating text h) module_name (moduleObj obj) (env.setLogDebug h) =
      some root)
    (hu : hotfixModule env fuel module_name chunk h₀ = .ok (done, loaded)) :
    ∃ st, TwoSteps env text fuel (moduleObj obj) h root st done.heap ∧
      done.updated_function_map = st.updated_func_map := by
  rcases hotfixModule_ok hstarts hu with ⟨-, hfalse⟩ | ⟨obj', h', done₁, h₁, hc', hdone, hlast, rfl⟩
  · rw [hfalse was hwas] at htrue
    cases htrue
  cases hc.symm.trans hc'
  obtain ⟨st, htwo, hmap, -⟩ := twoSteps_of_compared hq hroot hdone
  have hget := get_loaded_of_compared hq hroot hdone
  rw [index_of_isSome (Heap.index_of_get hget)] at hlast
  cases hlast
  exact ⟨st, htwo, hmap⟩

/-- The environment and the heap of the first step for `oneModule`. -/
abbrev oneUpdating : RawUpdater.Env :=
  oneModule.updating (fun _ => Runtime.stillText) (oneUpvalue (.num 5) (.num 1))

theorem oneModule_distinct :
    Distinct oneUpdating (oneUpvalue (.num 5) (.num 1)) (.table 2 1 (.str "m")) := by
  intro v w v' w' h₁ h₂ hc hc' _ _ hs
  have htexts : "new(" ++ Runtime.stillText (.table 2) ++ ") old(" ++
      Runtime.stillText (.table 1) ++ ")" ≠
      "new(" ++ Runtime.stillText (.func 2) ++ ") old(" ++ Runtime.stillText (.func 1) ++ ")" := by
    decide
  rcases oneUpvalue_checked hc with ⟨rfl, rfl⟩ | ⟨rfl, rfl⟩ <;>
    rcases oneUpvalue_checked hc' with ⟨rfl, rfl⟩ | ⟨rfl, rfl⟩
  · exact ⟨rfl, rfl⟩
  · exact absurd hs htexts
  · exact absurd hs.symm htexts
  · exact ⟨rfl, rfl⟩

section

variable {h' : Heap} {map : FuncMap}
  (hout : Outcome oneUpdating (oneUpvalue (.num 5) (.num 1)) (.table 2 1 (.str "m")) h' map)

include hout

theorem oneModule_get (t : Nat) (k : Value) :
    h'.get t k = (oneUpvalue (.num 5) (.num 1)).get t k :=
  (hout.fits.get t k).resolve_right fun hs => oneUpvalue_may hs

theorem oneModule_map {g f : Nat} (hl : map.lookup g = some f) : g = 1 ∧ f = 2 := by
  rcases oneUpvalue_may (hout.mapped g f hl).1 with e | e <;> cases e
  exact ⟨rfl, rfl⟩

theorem oneModule_old {r : Value} (hn : newVersion map r ≠ none) : r = .func 1 := by
  obtain ⟨f, hf⟩ := Option.ne_none_iff_exists'.mp hn
  obtain ⟨g, rfl, hl⟩ := RawReplacer.newVersion_eq_some hf
  rw [(oneModule_map hout hl).1]

/-- An outcome has no metatable, and one reference to the old function. -/
theorem oneModule_left :
    (replacement oneModule (oneUpvalue (.num 5) (.num 1)) (.table 2) h' map).Bare ∧
      (replacement oneModule (oneUpvalue (.num 5) (.num 1)) (.table 2) h' map).Complete := by
  have hget := oneModule_get hout
  have hmeta : ∀ t, h'.metatable t = none := fun t => by
    rw [hout.fits.metatable, oneUpvalue_metatable]
  refine ⟨fun t g f m _ _ _ _ hm => ?_, fun o g f _ _ hl hn => ?_, fun t r _ hr hn => ?_,
    fun u x c _ _ hn => ?_⟩
  · have hm : h'.metatable t = some m := hm
    rw [hmeta] at hm
    cases hm
  · obtain ⟨-, rfl⟩ := oneModule_map hout hl
    cases oneModule_old hout hn
  · have hr : Refers h' (.table t) (.func 1) := oneModule_old hout hn ▸ hr
    generalize hv : Value.func 1 = v at hr
    cases hr with
    | key hk =>
      subst hv
      rw [hget, oneUpvalue_get] at hk
      simp at hk
    | value hk =>
      rw [hget, oneUpvalue_get] at hv
      have ht : t = 1 := by
        by_contra ht
        grind
      subst ht
      refine .step (.root (o := .table 0) ?_ rfl) ⟨?_, fun ho => ho rfl⟩ rfl
      · simp [RawReplacer.Env.roots, replacement, Env.replacing, FunctionsReplacer.Env.raw,
          Env.replacer, Env.protectSelf, oneModule]
      · have e : h'.get 0 (.str "m") = .table 1 := hget 0 (.str "m")
        have hr : Refers h' (.table 0) (h'.get 0 (.str "m")) :=
          .value (by rw [e]; exact Value.noConfusion)
        rwa [e] at hr
    | metatable hm => cases hv
  · have hc := (oneUpvalue_may (hout.fits.mayCell c)).cell_num
    have hn : newVersion map (h'.cell c) ≠ none := hn
    rw [oneModule_old hout hn] at hc
    rcases hc with e | ⟨n, e⟩ <;> cases e

/-- The old function is on a path, and its upvalue is carried over. -/
theorem oneModule_outcome : (∀ c, h'.cell c = if c = 2 then .num 5
      else (oneUpvalue (.num 5) (.num 1)).cell c) ∧
    ∀ g, map.lookup g = if g = 1 then some 2 else none := by
  have hintact : Intact oneUpdating (oneUpvalue (.num 5) (.num 1)) (.table 2 1 (.str "m")) 2 1 :=
    fun n o k _ _ _ => ⟨fun v hs => (oneUpvalue_may hs).elim, fun v hs => (oneUpvalue_may hs).elim⟩
  have hchild : Child (oneUpvalue (.num 5) (.num 1)) 2 1 (.func 2) (.func 1) :=
    .func (k := .str "f") rfl rfl
  have hmem : 1 ∈ map := hout.covers 2 1 _ rfl hintact oneModule_distinct 2 1
    (.child .module rfl rfl hchild) (by decide) rfl
  obtain ⟨f, hl⟩ := Option.isSome_iff_exists.mp (AList.lookup_isSome.mpr hmem)
  obtain ⟨-, rfl⟩ := oneModule_map hout hl
  refine ⟨fun c => ?_, fun g => ?_⟩
  · by_cases hc : c = 2
    · subst hc
      rw [if_pos rfl]
      exact hout.keeps oneUpvalue_carries 1 2 hl "a" 2 1 List.mem_cons_self List.mem_cons_self
        (by decide)
    · rw [if_neg hc]
      exact (hout.fits.cell c).resolve_right fun hs => hc (oneUpvalue_may hs).1
  · by_cases hg : g = 1
    · rw [hg, hl, if_pos rfl]
    · rw [if_neg hg]
      by_contra hn
      obtain ⟨f, hl'⟩ := Option.ne_none_iff_exists'.mp hn
      exact hg (oneModule_map hout hl').1

end

theorem oneModule_determined :
    Determined oneUpdating (oneUpvalue (.num 5) (.num 1)) (.table 2 1 (.str "m")) := by
  intro h₁ h₂ map₁ map₂ hout₁ hout₂
  refine ⟨fun t k => ?_, fun c => ?_, fun g => ?_⟩
  · rw [oneModule_get hout₁, oneModule_get hout₂]
  · rw [(oneModule_outcome hout₁).1, (oneModule_outcome hout₂).1]
  · rw [(oneModule_outcome hout₁).2, (oneModule_outcome hout₂).2]

/-- Two versions of a module with `local S = { cb = function() … end }`, then
`local T = { k = function() return S.cb() end }` and `function M.f() return T.k() end`. -/
def nested : Heap where
  size := 12
  table t :=
    match t with
    | 0 => Table.empty.set (.str "m") (.table 1)
    | 1 => Table.empty.set (.str "f") (.func 1)
    | 2 => Table.empty.set (.str "f") (.func 11)
    | 3 => Table.empty.set (.str "k") (.func 2)
    | 4 => Table.empty.set (.str "k") (.func 12)
    | 5 => Table.empty.set (.str "cb") (.func 3)
    | 6 => Table.empty.set (.str "cb") (.func 13)
    | 7 => Table.empty.set (.str "log_debug") (.func 20)
    | 8 => Table.empty.set (.str "log_debug") (.func 20)
    | _ => Table.empty
  closure f :=
    match f with
    | 1 => [("T", 1)]
    | 2 => [("S", 2)]
    | 11 => [("T", 11)]
    | 12 => [("S", 12)]
    | _ => []
  cell c :=
    match c with
    | 1 => .table 3
    | 2 => .table 5
    | 11 => .table 4
    | 12 => .table 6
    | _ => .nil

def nestedModule : Env :=
  { oneModule with
    toEnv := .still 7
    hotfix := 8
    functions_replacer := 9
    globals := 10
    func_map := 12 }

end SkynetHotfix.Hotfix
