import Mathlib.Logic.Function.Basic

/-!
# Checks for modified modules

`M.check` of `common/hotfix/hotfix_helper.lua` with `M.hotfix_module` of
`hotfix.lua`. The loop over the modules is not protected, and the time of a file
is noted before its module is updated: a module that fails takes those after it
along (`failure_stops`), and is left alone until its file changes again
(`not_called_again`). So a check serves the modified modules just when none of
them fails and no two of them share a file (`check_serves`).
-/

namespace SkynetHotfix.HotfixHelper

open Function (update)

variable {S Chunk Obj : Type}

/-! ## The model -/

/-- The files as a check finds them. -/
structure Files where
  /-- `package.searchpath(module_name, package.path)` -/
  searchpath : String → Option String
  /-- `lfs.attributes(path, "modification")` -/
  attributes : String → Option Int
  /-- What `io.open` and `read` give. -/
  content : String → Option String

/-- The service, whose state is `S`, as the check uses it. -/
structure Env (S Chunk Obj : Type) where
  /-- `package.loaded[module_name]` is there. -/
  loaded : S → String → Bool
  /-- `load` of a file's content; `none` where it does not compile. -/
  load : String → String → Option Chunk
  /-- `pcall(func)`: what the chunk returns, or `none` where it raises. -/
  run : Chunk → S → Option (Option Obj) × S
  /-- The object `true`. -/
  obj_true : Obj
  /-- `hotfix_module_with_obj`, and whether it raises. -/
  hotfix_module_with_obj : String → Obj → S → Bool × S

/-- `M.hotfix_module`, and whether it raises. -/
def hotfix_module (env : Env S Chunk Obj) (files : Files) (module_name : String) (s : S) : Bool × S :=
  if env.loaded s module_name then
    match files.searchpath module_name with
    | none => (true, s)
    | some file_path =>
      match files.content file_path with
      | none => (true, s)
      | some chunk =>
        match env.load file_path chunk with
        | none => (true, s)
        | some func =>
          match env.run func s with
          | (none, s) => (true, s)
          | (some obj, s) => env.hotfix_module_with_obj module_name (obj.getD env.obj_true) s
  else (false, s)

structure State (S : Type) where
  path_to_time : String → Option Int
  service : S

/-- A check: the calls of `hotfix_module` in their order, with what raised, and how it ends. -/
structure Checked (S : Type) where
  calls : List (String × Bool)
  raised : Bool
  state : State S

/-- The loop of `M.check` over the modules. -/
def checkAll (env : Env S Chunk Obj) (files : Files) : List String → State S → Checked S
  | [], st => ⟨[], false, st⟩
  | module_name :: module_names, st =>
    match files.searchpath module_name with
    | none => checkAll env files module_names st
    | some path =>
      let file_time := files.attributes path
      if file_time = st.path_to_time path then checkAll env files module_names st
      else
        let (raised, service) := hotfix_module env files module_name st.service
        let st : State S := ⟨update st.path_to_time path file_time, service⟩
        if raised then ⟨[(module_name, true)], true, st⟩
        else
          let rest := checkAll env files module_names st
          { rest with calls := (module_name, false) :: rest.calls }

/-- `M.check`, where `require("hotfix_module_names")` gives the modules, or nothing. -/
def check (env : Env S Chunk Obj) (files : Files) (module_names : Option (List String))
    (st : State S) : Checked S :=
  match files.searchpath "hotfix_module_names", module_names with
  | some _, some module_names => checkAll env files module_names st
  | _, _ => ⟨[], false, st⟩

/-! ## Modules to update -/

variable {env : Env S Chunk Obj} {files files' : Files} {st : State S} {name : String}
  {names : List String}

/-- The module's file is not of the time noted for it. -/
def Modified (files : Files) (path_to_time : String → Option Int) (name : String) : Prop :=
  ∃ path, files.searchpath name = some path ∧ files.attributes path ≠ path_to_time path

/-- The check has called `hotfix_module` for it. -/
def Checked.Called (c : Checked S) (name : String) : Prop := ∃ raised, (name, raised) ∈ c.calls

/-- The modified modules of a list in their order, those that share a file once. -/
def todo (files : Files) : (String → Option Int) → List String → List String
  | _, [] => []
  | path_to_time, name :: names =>
    match files.searchpath name with
    | none => todo files path_to_time names
    | some path =>
      if files.attributes path = path_to_time path then todo files path_to_time names
      else name :: todo files (update path_to_time path (files.attributes path)) names

/-- None of the modules raises, updated one after another. -/
def Updates (env : Env S Chunk Obj) (files : Files) : S → List String → Prop
  | _, [] => True
  | s, name :: names => (hotfix_module env files name s).1 = false ∧
    Updates env files (hotfix_module env files name s).2 names

theorem mem_todo {path_to_time : String → Option Int} (h : name ∈ todo files path_to_time names) :
    name ∈ names ∧ Modified files path_to_time name := by
  induction names generalizing path_to_time with
  | nil => cases h
  | cons name' names ih =>
    unfold todo at h
    split at h
    · exact (ih h).imp_left (List.mem_cons_of_mem _)
    · next path hp =>
      split at h
      · exact (ih h).imp_left (List.mem_cons_of_mem _)
      · next ht =>
        rcases List.mem_cons.mp h with rfl | h
        · exact ⟨List.mem_cons_self, path, hp, ht⟩
        · obtain ⟨hmem, path', hp', ht'⟩ := ih h
          refine ⟨List.mem_cons_of_mem _ hmem, path', hp', ?_⟩
          by_cases he : path' = path
          · subst he
            simp at ht'
          · rwa [Function.update_of_ne he] at ht'

/-- Of the modified modules one is left out where it shares its file with one before it. -/
theorem exists_todo {path_to_time : String → Option Int} (hn : name ∈ names)
    (hm : Modified files path_to_time name) :
    ∃ name' ∈ todo files path_to_time names, files.searchpath name' = files.searchpath name := by
  induction names generalizing path_to_time with
  | nil => cases hn
  | cons name₀ names ih =>
    obtain ⟨path, hp, ht⟩ := hm
    unfold todo
    rcases List.mem_cons.mp hn with rfl | hn
    · rw [hp]
      simp only [if_neg ht]
      exact ⟨name, List.mem_cons_self, hp⟩
    · split
      · exact ih hn ⟨path, hp, ht⟩
      · next path₀ hp₀ =>
        split
        · exact ih hn ⟨path, hp, ht⟩
        · by_cases he : path = path₀
          · subst he
            exact ⟨name₀, List.mem_cons_self, by rw [hp₀, hp]⟩
          · obtain ⟨name', hn', hp'⟩ :=
              @ih (update path_to_time path₀ (files.attributes path₀)) hn
                ⟨path, hp, by rwa [Function.update_of_ne he]⟩
            exact ⟨name', List.mem_cons_of_mem _ hn', hp'⟩

theorem todo_path_inj {path_to_time : String → Option Int} {name' : String}
    (h : name ∈ todo files path_to_time names) (h' : name' ∈ todo files path_to_time names)
    (hp : files.searchpath name = files.searchpath name') : name = name' := by
  induction names generalizing path_to_time with
  | nil => cases h
  | cons name₀ names ih =>
    unfold todo at h h'
    split at h
    · next hn =>
      simp only [hn] at h'
      exact ih h h'
    · next path₀ hp₀ =>
      simp only [hp₀] at h'
      split at h
      · next ht =>
        rw [if_pos ht] at h'
        exact ih h h'
      · next ht =>
        rw [if_neg ht] at h'
        -- what is left after `name₀` is not of its file
        have hne : ∀ n, n ∈ todo files (update path_to_time path₀ (files.attributes path₀)) names →
            files.searchpath n ≠ some path₀ := by
          intro n hn he
          obtain ⟨-, path, hpn, htn⟩ := mem_todo hn
          rw [he] at hpn
          obtain rfl := Option.some.inj hpn
          simp at htn
        rcases List.mem_cons.mp h with h₁ | h₁
        · rcases List.mem_cons.mp h' with h₂ | h₂
          · rw [h₁, h₂]
          · rw [h₁, hp₀] at hp
            exact absurd hp.symm (hne _ h₂)
        · rcases List.mem_cons.mp h' with h₂ | h₂
          · rw [h₂, hp₀] at hp
            exact absurd hp (hne _ h₁)
          · exact ih h₁ h₂

/-- The modified modules all have their turn just when no two of them share a file. -/
theorem todo_complete {path_to_time : String → Option Int} :
    (∀ name ∈ names, Modified files path_to_time name → name ∈ todo files path_to_time names) ↔
    ∀ name ∈ names, ∀ name' ∈ names, Modified files path_to_time name →
      files.searchpath name = files.searchpath name' → name = name' := by
  constructor
  · intro h name hn name' hn' hm hp
    have hm' : Modified files path_to_time name' := by
      obtain ⟨path, hpath, ht⟩ := hm
      exact ⟨path, hp ▸ hpath, ht⟩
    exact todo_path_inj (h name hn hm) (h name' hn' hm') hp
  · intro h name hn hm
    obtain ⟨name', hn', hp⟩ := exists_todo hn hm
    obtain rfl := h name hn name' (mem_todo hn').1 hm hp.symm
    exact hn'

/-! ## The loop -/

/-- If none of the modified modules raises, each is called in its turn. -/
theorem checkAll_updates (h : Updates env files st.service (todo files st.path_to_time names)) :
    (checkAll env files names st).calls =
      (todo files st.path_to_time names).map fun name => (name, false) := by
  induction names generalizing st with
  | nil => rfl
  | cons name names ih =>
    unfold todo at h ⊢
    unfold checkAll
    cases hp : files.searchpath name with
    | none =>
      simp only [hp] at h
      exact ih h
    | some path =>
      simp only [hp] at h ⊢
      by_cases ht : files.attributes path = st.path_to_time path
      · rw [if_pos ht] at h
        simp only [if_pos ht]
        exact ih h
      · rw [if_neg ht] at h
        obtain ⟨hr, h⟩ := h
        simp only [if_neg ht, hr, Bool.false_eq_true, if_false, List.map_cons]
        exact congrArg _ (@ih ⟨update st.path_to_time path (files.attributes path),
          (hotfix_module env files name st.service).2⟩ h)

/-- A module that raises ends the check, with the time of its file noted. -/
theorem checkAll_raises (h : ¬ Updates env files st.service (todo files st.path_to_time names)) :
    ∃ name path, (name, true) ∈ (checkAll env files names st).calls ∧
      files.searchpath name = some path ∧
      (checkAll env files names st).state.path_to_time path = files.attributes path := by
  induction names generalizing st with
  | nil => exact absurd trivial h
  | cons name names ih =>
    unfold todo at h
    unfold checkAll
    cases hp : files.searchpath name with
    | none =>
      simp only [hp] at h
      exact ih h
    | some path =>
      simp only [hp] at h ⊢
      by_cases ht : files.attributes path = st.path_to_time path
      · rw [if_pos ht] at h
        simp only [if_pos ht]
        exact ih h
      · rw [if_neg ht] at h
        simp only [if_neg ht]
        cases hr : (hotfix_module env files name st.service).1 with
        | true => exact ⟨name, path, List.mem_cons_self, hp, by simp⟩
        | false =>
          obtain ⟨name', path', hc, hp', ht'⟩ :=
            @ih ⟨update st.path_to_time path (files.attributes path),
              (hotfix_module env files name st.service).2⟩ fun hu => h ⟨hr, hu⟩
          exact ⟨name', path', List.mem_cons_of_mem _ hc, hp', ht'⟩

/-- A module whose file is of the time noted for it is not called. -/
theorem not_called {path : String} (hp : files.searchpath name = some path)
    (ht : files.attributes path = st.path_to_time path) :
    ¬ (checkAll env files names st).Called name := by
  induction names generalizing st with
  | nil => exact fun ⟨_, h⟩ => by cases h
  | cons name' names ih =>
    unfold checkAll
    split
    · exact ih ht
    · next path' hp' =>
      simp only
      split
      · exact ih ht
      · next ht' =>
        have hne : name ≠ name' := by
          rintro rfl
          rw [hp] at hp'
          obtain rfl := Option.some.inj hp'
          exact ht' ht
        split
        · rintro ⟨r, hr⟩
          exact hne (Prod.mk.inj (List.mem_singleton.mp hr)).1
        · rintro ⟨r, hr⟩
          rcases List.mem_cons.mp hr with hr | hr
          · exact hne (Prod.mk.inj hr).1
          · refine @ih ⟨update st.path_to_time path' (files.attributes path'), _⟩ ?_ ⟨r, hr⟩
            by_cases he : path = path'
            · subst he
              simp
            · simpa [he] using ht

/-! ## What a check serves -/

/-- The module is found where it was, and its file is of the time it was. -/
def SameFile (files files' : Files) (name : String) : Prop :=
  ∃ path, files.searchpath name = some path ∧ files'.searchpath name = some path ∧
    files'.attributes path = files.attributes path

/-- Every modified module of the list is called, and one that raises is called by the next check
again, whatever the service has done since, though its file is as it was. -/
structure Serves (env : Env S Chunk Obj) (files : Files) (names : List String) (st : State S) :
    Prop where
  modified : ∀ name ∈ names, Modified files st.path_to_time name →
    (check env files (some names) st).Called name
  again : ∀ name, (name, true) ∈ (check env files (some names) st).calls →
    ∀ files' names' service, (files'.searchpath "hotfix_module_names").isSome →
      SameFile files files' name → name ∈ names' →
      (check env files' (some names')
        { (check env files (some names) st).state with service := service }).Called name

theorem check_eq (h : (files.searchpath "hotfix_module_names").isSome) (names : List String)
    (st : State S) : check env files (some names) st = checkAll env files names st := by
  obtain ⟨path, hp⟩ := Option.isSome_iff_exists.mp h
  unfold check
  rw [hp]

/-- A module that raised is not called again until its file changes. -/
theorem not_called_again {path : String} (hp : files.searchpath name = some path)
    (ht : (checkAll env files names st).state.path_to_time path = files.attributes path)
    (hf : SameFile files files' name) (names' : List String) (service : S) :
    ¬ (checkAll env files' names'
      { (checkAll env files names st).state with service := service }).Called name := by
  obtain ⟨path', hp', hpath, ht'⟩ := hf
  obtain rfl : path' = path := Option.some.inj (hp'.symm.trans hp)
  exact not_called hpath (ht'.trans ht.symm)

/-- A check serves the modified modules of its list just when no two of them share a file and none
of them raises, updated one after another. -/
theorem check_serves (env : Env S Chunk Obj) (files : Files) (names : List String) (st : State S)
    (hfile : (files.searchpath "hotfix_module_names").isSome) :
    Serves env files names st ↔
      (∀ name ∈ names, ∀ name' ∈ names, Modified files st.path_to_time name →
        files.searchpath name = files.searchpath name' → name = name') ∧
      Updates env files st.service (todo files st.path_to_time names) := by
  rw [← todo_complete]
  constructor
  · intro h
    have hu : Updates env files st.service (todo files st.path_to_time names) := by
      by_contra hu
      obtain ⟨name, path, hc, hp, ht⟩ := checkAll_raises hu
      have ha := h.again name (by rwa [check_eq hfile]) files [name] st.service hfile
        ⟨path, hp, hp, rfl⟩ List.mem_cons_self
      rw [check_eq hfile, check_eq hfile] at ha
      exact not_called_again hp ht ⟨path, hp, hp, rfl⟩ [name] st.service ha
    refine ⟨fun name hn hm => ?_, hu⟩
    obtain ⟨r, hr⟩ := h.modified name hn hm
    rw [check_eq hfile, checkAll_updates hu] at hr
    obtain ⟨name', hn', he⟩ := List.mem_map.mp hr
    rwa [← (Prod.mk.inj he).1]
  · rintro ⟨hm, hu⟩
    refine ⟨fun name hn hmod => ⟨false, ?_⟩, fun name hr => ?_⟩
    · rw [check_eq hfile, checkAll_updates hu]
      exact List.mem_map_of_mem (hm name hn hmod)
    · rw [check_eq hfile, checkAll_updates hu] at hr
      obtain ⟨name', -, he⟩ := List.mem_map.mp hr
      cases (Prod.mk.inj he).2

/-- Two modules with a file each, modified at `1`; the file of `broken` does not compile. -/
def sampleFiles : Files where
  searchpath name := some (name ++ ".lua")
  attributes _ := some 1
  content _ := some ""

def sampleEnv : Env Unit Unit Unit where
  loaded _ _ := true
  load path _ := if path = "broken.lua" then none else some ()
  run _ s := (some none, s)
  obj_true := ()
  hotfix_module_with_obj _ _ s := (false, s)

def sampleState : State Unit := ⟨fun _ => none, ()⟩

theorem check_serves_sample : Serves sampleEnv sampleFiles ["test02"] sampleState :=
  (check_serves sampleEnv sampleFiles ["test02"] sampleState rfl).mpr
    ⟨by simp, by decide +kernel, trivial⟩

/-- The module after one that does not compile is not updated, and neither is that one by the next
check. -/
theorem failure_stops :
    ¬ Serves sampleEnv sampleFiles ["broken", "test02"] sampleState ∧
      (check sampleEnv sampleFiles (some ["broken", "test02"]) sampleState).calls =
        [("broken", true)] ∧
      (check sampleEnv sampleFiles (some ["broken", "test02"])
        (check sampleEnv sampleFiles (some ["broken", "test02"]) sampleState).state).calls =
        [("test02", false)] := by
  have hc : (check sampleEnv sampleFiles (some ["broken", "test02"]) sampleState).calls =
      [("broken", true)] := by decide +kernel
  refine ⟨fun h => ?_, hc, by decide +kernel⟩
  obtain ⟨r, hr⟩ := h.modified "test02" (by decide) ⟨"test02.lua", by decide +kernel, by decide⟩
  rw [hc] at hr
  revert hr
  decide +revert

end SkynetHotfix.HotfixHelper
