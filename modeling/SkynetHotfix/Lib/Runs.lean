import Mathlib.Data.List.TakeWhile

/-!
# Runs

The `runs` of a list are its longest stretches without a separator, the empty ones left out, in
order. They are what a scan finds that takes one run after the other (`runs_eq_cons`), they have
all that is no separator (`flatten_runs`) and nothing else, and none is empty.
-/

namespace Runs

variable {α : Type*} [DecidableEq α] {d : α}

def runs (d : α) (s : List α) : List (List α) := (s.splitOn d).filter (· ≠ [])

@[simp] theorem runs_nil : runs d [] = [] := by
  simp [runs, List.splitOn_nil]

/-- Runs end at a separator. -/
theorem runs_append_cons (x y : List α) : runs d (x ++ d :: y) = runs d x ++ runs d y := by
  rw [runs, List.splitOn_append_cons_self, List.filter_append]
  rfl

@[simp] theorem runs_cons_self (s : List α) : runs d (d :: s) = runs d s := by
  simpa using runs_append_cons [] s

theorem runs_of_notMem {u : List α} (hne : u ≠ []) (hu : d ∉ u) : runs d u = [u] := by
  rw [runs, List.splitOn_eq_singleton hu]
  simp [hne]

/-- A run is followed by a separator or by nothing. -/
theorem runs_append {u rest : List α} (hne : u ≠ []) (hu : d ∉ u)
    (hrest : ∀ c ∈ rest.head?, c = d) :
    runs d (u ++ rest) = u :: runs d rest := by
  cases rest with
  | nil => simpa using runs_of_notMem hne hu
  | cons c rest =>
    obtain rfl := hrest c rfl
    rw [runs_append_cons, runs_of_notMem hne hu, runs_cons_self]
    rfl

/-- What a scan finds at the start of a run. -/
theorem runs_eq_cons {s : List α} (hne : s.takeWhile (· ≠ d) ≠ []) :
    runs d s = s.takeWhile (· ≠ d) :: runs d (s.drop (s.takeWhile (· ≠ d)).length) := by
  have hu : d ∉ s.takeWhile (· ≠ d) := fun h => by simpa using List.mem_takeWhile_imp h
  have hrest : ∀ c ∈ (s.dropWhile (· ≠ d)).head?, c = d := by
    intro c hc
    have hhead := List.head?_dropWhile_not (· ≠ d) s
    rw [Option.mem_def.mp hc] at hhead
    simpa using hhead
  have hs := List.takeWhile_append_dropWhile (p := (· ≠ d)) (l := s)
  have hdrop : (s.takeWhile (· ≠ d) ++ s.dropWhile (· ≠ d)).drop (s.takeWhile (· ≠ d)).length =
      s.dropWhile (· ≠ d) := List.drop_left
  rw [hs] at hdrop
  have happend := runs_append hne hu hrest
  rwa [hs, ← hdrop] at happend

/-- What a scan finds at a separator, and at the end. -/
theorem runs_eq_tail {s : List α} (h : s.takeWhile (· ≠ d) = []) : runs d s = runs d s.tail := by
  cases s with
  | nil => rfl
  | cons c s =>
    by_cases hc : c = d
    · subst hc
      exact runs_cons_self s
    · simp [hc] at h

theorem ne_nil_of_mem {s u : List α} (h : u ∈ runs d s) : u ≠ [] := by
  simpa using (List.mem_filter.mp h).2

/-- The runs have all that is no separator. -/
theorem flatten_runs (s : List α) : (runs d s).flatten = s.filter (· ≠ d) := by
  have hflat : ∀ l : List (List α), (l.filter (· ≠ [])).flatten = l.flatten := by
    intro l
    induction l with
    | nil => rfl
    | cons u l ih => by_cases hu : u = [] <;> simp_all
  rw [runs, hflat]
  induction s with
  | nil => simp [List.splitOn_nil]
  | cons c s ih =>
    rw [List.splitOn_cons_eq_if_modifyHead]
    obtain ⟨u, l, hl⟩ := List.exists_cons_of_ne_nil (List.splitOn_ne_nil d s)
    by_cases hc : c = d
    · simp [hc, ih]
    · rw [hl] at ih ⊢
      simp only [beq_iff_eq, hc, if_false, List.modifyHead_cons, List.flatten_cons,
        List.cons_append]
      rw [List.filter_cons_of_pos (by simpa using hc), ← ih, List.flatten_cons]

theorem mem_run_iff {s : List α} {c : α} : (∃ u ∈ runs d s, c ∈ u) ↔ c ∈ s ∧ c ≠ d := by
  rw [← List.mem_flatten, flatten_runs, List.mem_filter]
  simp

end Runs
