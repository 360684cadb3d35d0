import SkynetHotfix.ConfigTool.Basic

/-!
# Hot loading: which load functions are called again

The times of the files come from a command that skynet has not got: `filetime`
gives nothing for any file (`filetime_eq`), so no noted time is ever another
(`Untimed`), and no round calls anything (`calls_eq`). What is `Due` in each round
is called just when no file that a function owns is ever written
(`hot_load_calls`, `written_not_called`).
-/

namespace SkynetHotfix.ConfigTool

variable {Fn File Config : Type}

/-- FILETIME is none of the commands of skynet. -/
theorem filetime_eq (st : State Fn File Config) (file : File) : st.filetime file = none := by
  have hfind : cmd_funcs.find? (fun name => name == "FILETIME") = none := by decide
  rw [State.filetime, skynet_command, hfind]

/-! ## No time is noted -/

/-- The files are noted without a time, and nothing is altered. -/
structure Untimed (st : State Fn File Config) : Prop where
  file_list : ∀ file ∈ st.file_list, file.2 = none
  file_dic : ∀ entry ∈ st.file_dic.entries, ∀ file ∈ entry.2, file.2 = none
  alter : st.alter = []

namespace Untimed

variable {st : State Fn File Config}

theorem initial (func : String → File → Option String) :
    Untimed (initial func : State Fn File Config) where
  file_list := List.forall_mem_nil _
  file_dic := List.forall_mem_nil _
  alter := rfl

theorem begin (h : Untimed st) : Untimed st.begin where
  file_list := List.forall_mem_nil _
  file_dic := h.file_dic
  alter := h.alter

theorem finish (h : Untimed st) : Untimed st.finish := ⟨h.file_list, h.file_dic, h.alter⟩

theorem file_montior (h : Untimed st) (file : File) : Untimed (st.file_montior file) := by
  unfold State.file_montior
  split
  · refine ⟨fun noted hnoted => ?_, h.file_dic, h.alter⟩
    rcases List.mem_append.mp hnoted with hnoted | hnoted
    · exact h.file_list noted hnoted
    · rw [List.mem_singleton.mp hnoted]
      exact filetime_eq st file
  · exact h

variable [DecidableEq Fn]

theorem share_new (h : Untimed st) (share_fun : Fn) (share_name : String) (config : Config) :
    Untimed (st.share_new share_fun share_name config) := by
  unfold State.share_new
  split
  · refine ⟨List.forall_mem_nil _, fun entry hentry => ?_, h.alter⟩
    rcases List.mem_cons.mp hentry with rfl | hentry
    · exact h.file_list
    · exact h.file_dic entry ((List.kerase_sublist ..).subset hentry)
  · exact ⟨h.file_list, h.file_dic, h.alter⟩

mutual

theorem exec : ∀ (load : Load Fn File Config) {st : State Fn File Config}, Untimed st →
    Untimed (load.exec st)
  | .share_new share_fun share_name config, _, h => h.share_new share_fun share_name config
  | .load_lua_file path callback, _, h => (execs callback h).file_montior path

theorem execs : ∀ (loads : List (Load Fn File Config)) {st : State Fn File Config}, Untimed st →
    Untimed (Load.execs loads st)
  | [], _, h => h
  | load :: loads, _, h => execs loads (exec load h)

end

/-- The loop over `file_dic` finds nothing altered. -/
theorem scan (h : Untimed st) : Untimed st.scan where
  file_list := h.file_list
  file_dic entry hentry file hfile := by
    obtain ⟨entry', -, rfl⟩ := List.mem_map.mp hentry
    obtain ⟨file', -, rfl⟩ := List.mem_map.mp hfile
    exact filetime_eq st file'.1
  alter := by
    have hnone : (st.file_dic.entries.filter fun entry =>
        entry.2.any fun file => file.2 ≠ st.filetime file.1) = [] := by
      refine List.filter_eq_nil_iff.mpr fun entry hentry hany => ?_
      obtain ⟨file, hfile, hne⟩ := List.any_eq_true.mp hany
      rw [filetime_eq, h.file_dic entry hentry file hfile] at hne
      exact absurd hne (by simp)
    show List.foldl _ st.alter _ = []
    rw [hnone]
    exact h.alter

theorem hot_load (h : Untimed st) (round : Round Fn) :
    (st.hot_load round).1 = [] ∧ Untimed (st.hot_load round).2 := by
  have horder : round.order [] = [] := List.perm_nil.mp (round.order_perm [])
  unfold State.hot_load
  split
  · simp only [h.scan.alter, horder]
    exact ⟨rfl, h.scan.file_list, h.scan.file_dic, rfl⟩
  · exact ⟨rfl, h⟩

end Untimed

/-! ## Runs -/

variable [DecidableEq Fn] {st : State Fn File Config} {rounds : Nat → Round Fn}

/-- The state before a round. -/
def hotLoads (st : State Fn File Config) (rounds : Nat → Round Fn) : Nat → State Fn File Config
  | 0 => st
  | n + 1 => ((hotLoads st rounds n).hot_load (rounds n)).2

/-- The share functions called in a round. -/
def calls (st : State Fn File Config) (rounds : Nat → Round Fn) (n : Nat) : List Fn :=
  ((hotLoads st rounds n).hot_load (rounds n)).1

theorem Untimed.hotLoads (h : Untimed st) (rounds : Nat → Round Fn) (n : Nat) :
    Untimed (hotLoads st rounds n) := by
  induction n with
  | zero => exact h
  | succ n ih => exact (ih.hot_load (rounds n)).2

/-- No round calls a function. -/
theorem calls_eq (h : Untimed st) (rounds : Nat → Round Fn) (n : Nat) :
    calls st rounds n = [] :=
  ((h.hotLoads rounds n).hot_load (rounds n)).1

/-- The function owns a file whose time on the disk is not the one that it had at the last look: in
the round before, or in the load phase. `times 0` are the times then, `times (n + 1)` those of the
round `n`. -/
def Changed (st : State Fn File Config) (times : Nat → File → Int) (share_fun : Fn) (n : Nat) :
    Prop :=
  ∃ files, st.file_dic.lookup share_fun = some files ∧
    ∃ file ∈ files, times n file.1 ≠ times (n + 1) file.1

/-- The function is to be called: a file of it changed, or it was to be called and raised. -/
def Due (st : State Fn File Config) (times : Nat → File → Int) (rounds : Nat → Round Fn)
    (share_fun : Fn) : Nat → Prop
  | 0 => Changed st times share_fun 0
  | n + 1 => Changed st times share_fun (n + 1) ∨
    Due st times rounds share_fun n ∧ (rounds n).raises share_fun = true

theorem exists_changed_of_due {times : Nat → File → Int} {share_fun : Fn} {n : Nat}
    (h : Due st times rounds share_fun n) : ∃ m ≤ n, Changed st times share_fun m := by
  induction n with
  | zero => exact ⟨0, le_rfl, h⟩
  | succ n ih =>
    rcases h with h | ⟨h, -⟩
    · exact ⟨n + 1, le_rfl, h⟩
    · obtain ⟨m, hm, hc⟩ := ih h
      exact ⟨m, Nat.le_succ_of_le hm, hc⟩

theorem due_of_changed {times : Nat → File → Int} {share_fun : Fn} {n : Nat}
    (h : Changed st times share_fun n) : Due st times rounds share_fun n := by
  cases n with
  | zero => exact h
  | succ n => exact .inl h

/-- Every round calls each function that is due in it once, just when no file that a function owns is
written after the load phase. -/
theorem hot_load_calls (func : String → File → Option String)
    (before loads : List (Load Fn File Config)) (times : Nat → File → Int)
    (rounds : Nat → Round Fn) :
    (∀ n share_fun,
      Due (Load.execs loads (Load.execs before (initial func)).begin).finish times rounds
        share_fun n →
      (calls (Load.execs loads (Load.execs before (initial func)).begin).finish rounds n).count
        share_fun = 1) ↔
    ∀ n share_fun,
      ¬ Changed (Load.execs loads (Load.execs before (initial func)).begin).finish times
        share_fun n := by
  have huntimed : Untimed (Load.execs loads (Load.execs before (initial func)).begin).finish :=
    (Untimed.execs loads (Untimed.execs before (.initial func)).begin).finish
  constructor
  · intro h n f hc
    have hone := h n f (due_of_changed hc)
    rw [calls_eq huntimed] at hone
    cases hone
  · intro h n f hd
    obtain ⟨m, -, hc⟩ := exists_changed_of_due hd
    exact absurd hc (h m f)

/-- A function with a file. -/
def sampleShares : List (Load Nat String Unit) :=
  [.load_lua_file "item.lua" [], .share_new 0 "item_cfg" ()]

/-- The state after the load phase, with commands that answer nothing. -/
def sampleState : State Nat String Unit :=
  (Load.execs sampleShares (initial fun _ _ => none).begin).finish

def sampleRounds : Nat → Round Nat := fun _ => ⟨fun _ => false, id, .refl⟩

/-- The file is written before the first round, which does not call the function. -/
theorem written_not_called :
    Due sampleState (fun n _ => n) sampleRounds 0 0 ∧ calls sampleState sampleRounds 0 = [] :=
  ⟨⟨[("item.lua", none)], rfl, _, List.mem_singleton_self _, by decide⟩,
    calls_eq (Untimed.execs sampleShares (Untimed.initial _).begin).finish sampleRounds 0⟩

end SkynetHotfix.ConfigTool
