import SkynetHotfix.Lib.Runs
import SkynetHotfix.Lua.Pattern

/-!
# The pattern of a run

The pattern `[^d]+` takes the longest run of bytes other than `d`, and so does `([^d]+)` with a
capture (`TakesRuns`). A loop over the matches of such a pattern therefore finds the runs of the
subject in order (`gmatch_runs`, `gsub_runs`). A `%` for `d` takes the closing bracket for its own,
and there is no match but an error.
-/

namespace SkynetHotfix.Lua.Pattern

open Runs

variable {d : UInt8} {src p : Str} {s : Nat} {caps : List Capture}
variable {call goto : Nat → Str → List Capture → Matched}

/-- The run of bytes other than `d` at a place. -/
def run (d : UInt8) (src : Str) (s : Nat) : Str := (src.drop s).takeWhile (· ≠ d)

/-- The pattern `[^d]+` with `p` behind it. -/
def ofRun (d : UInt8) (p : Str) : Str := 91 :: 94 :: d :: 93 :: 43 :: p

/-- At each place a pattern takes the run there, as its first value, or it does not match. -/
def TakesRuns (d : UInt8) (p : Str) : Prop := ∀ src s,
  (run d src s = [] → matchAt src s p = .ok none) ∧
  (run d src s ≠ [] → ∃ caps, matchAt src s p = .ok (some (s + (run d src s).length, caps)) ∧
    push_captures src caps s (s + (run d src s).length) = .ok [.str (run d src s)])

theorem take_run : (src.drop s).take (run d src s).length = run d src s :=
  (List.prefix_iff_eq_take.mp (List.takeWhile_prefix (· ≠ d))).symm

theorem run_length_le (h : s ≤ src.length) : s + (run d src s).length ≤ src.length := by
  have hle := (List.takeWhile_prefix (l := src.drop s) (· ≠ d)).length_le
  rw [List.length_drop] at hle
  rw [run]
  omega

/-- A run is its first byte and the run behind that. -/
theorem run_length_succ (h : run d src s ≠ []) :
    (run d src s).length = (run d src (s + 1)).length + 1 := by
  unfold run at h ⊢
  rw [← List.drop_drop, List.drop_one]
  cases hs : src.drop s with
  | nil => simp [hs] at h
  | cons c rest =>
    have hc : c ≠ d := by
      intro hc
      simp [hs, hc] at h
    simp [hc]

/-! ## One match -/

theorem classend_other (hd : d ≠ L_ESC) (p : Str) :
    classend 91 (94 :: d :: 93 :: p) = .ok (.set [94, d], p) := by
  have hclose : setend true (93 :: p) = .ok ([], p) := by cases p <;> simp [setend]
  have hset : setend false (d :: 93 :: p) = .ok ([d], p) := by
    rw [setend, Bool.false_and, if_neg Bool.false_ne_true, if_neg hd, hclose]
    rfl
  simp [classend, L_ESC, hset, Fuel.ok_bind]

theorem single_other (hd : d ≠ L_ESC) :
    (Item.set [94, d]).single = fun c => decide (c ≠ d) := by
  funext c
  simp [Item.single, matchbracketclass, matchset, hd, eq_comm]

theorem singlematch_other (hd : d ≠ L_ESC) :
    singlematch src s (.set [94, d]) = decide (run d src s ≠ []) := by
  rw [singlematch, single_other hd, run, ← List.head?_drop]
  cases src.drop s with
  | nil => rfl
  | cons c rest => by_cases hc : c = d <;> simp [hc]

theorem repetitions_other (hd : d ≠ L_ESC) :
    repetitions src s (.set [94, d]) = (run d src s).length := by
  rw [repetitions, single_other hd]
  rfl

theorem step_ofRun (hd : d ≠ L_ESC) : step src call goto s (ofRun d p) caps =
    if run d src s = [] then .ok none
    else max_expand (fun s => call s p caps) (s + 1) (run d src (s + 1)).length := by
  have hdflt : step src call goto s (ofRun d p) caps =
      dflt src call goto s 91 (94 :: d :: 93 :: 43 :: p) caps := by
    simp [step, ofRun, L_ESC]
  rw [hdflt, dflt, classend_other hd, Fuel.ok_bind]
  simp only [singlematch_other hd, repetitions_other hd, List.headD_cons, List.tail_cons]
  by_cases h : run d src s = [] <;> simp [h]

/-- A run is taken if the rest of the pattern matches behind it. -/
theorem step_run (hd : d ≠ L_ESC) (h : run d src s ≠ []) {res : Nat × List Capture}
    (hcall : call (s + (run d src s).length) p caps = .ok (some res)) :
    step src call goto s (ofRun d p) caps = .ok (some res) := by
  rw [step_ofRun hd, if_neg h]
  refine max_expand_first ?_
  rw [run_length_succ h] at hcall
  rwa [show s + 1 + (run d src (s + 1)).length = s + ((run d src (s + 1)).length + 1) by omega]

theorem step_no_run (hd : d ≠ L_ESC) (h : run d src s = []) :
    step src call goto s (ofRun d p) caps = .ok none := by
  rw [step_ofRun hd, if_pos h]

/-- The pattern `[^d]+` -/
theorem takesRuns (hd : d ≠ L_ESC) : TakesRuns d (ofRun d []) := by
  intro src s
  rw [matchAt_eq rfl]
  refine ⟨step_no_run hd, fun h => ⟨[], step_run hd h rfl, ?_⟩⟩
  show Except.ok [Captured.str ((src.drop s).take (s + (run d src s).length - s))] = _
  rw [Nat.add_sub_cancel_left, take_run]

/-- The pattern `([^d]+)` -/
theorem takesRuns_captured (hd : d ≠ L_ESC) : TakesRuns d (40 :: ofRun d [41]) := by
  intro src s
  have hstep : matchAt src s (40 :: ofRun d [41]) =
      step src (doMatch src 6 198) (doMatch src 6 199) s (ofRun d [41]) [⟨s, .unfinished⟩] := by
    rw [matchAt_eq rfl, step_open (by simp [ofRun])]
    rfl
  rw [hstep]
  refine ⟨step_no_run hd, fun h => ?_⟩
  refine ⟨[⟨s, .closed (s + (run d src s).length - s)⟩], step_run hd h rfl, ?_⟩
  show Except.ok [Captured.str ((src.drop s).take (s + (run d src s).length - s))] = _
  rw [Nat.add_sub_cancel_left, take_run]

/-! ## All matches -/

/-- The runs from a place on begin with the run there. -/
theorem runs_drop (h : run d src s ≠ []) :
    runs d (src.drop s) = run d src s :: runs d (src.drop (s + (run d src s).length)) := by
  rw [runs_eq_cons h, List.drop_drop]
  rfl

theorem runs_drop_succ (h : run d src s = []) :
    runs d (src.drop s) = runs d (src.drop (s + 1)) := by
  rw [runs_eq_tail h, List.tail_drop]

theorem gmatch_aux_runs (hp : TakesRuns d p) {k : Nat} {lastmatch : Option Nat}
    (hlast : ∀ e ∈ lastmatch, e ≤ s) (hs : s ≤ src.length + 1) (hk : src.length + 1 < k + s) :
    gmatch_aux src p k s lastmatch = .ok ((runs d (src.drop s)).map fun v => [.str v]) := by
  induction k generalizing s lastmatch with
  | zero => omega
  | succ k ih =>
    rw [gmatch_aux]
    by_cases hend : src.length < s
    · rw [if_pos hend, List.drop_eq_nil_of_le (by omega), runs_nil]
      rfl
    rw [if_neg hend]
    obtain ⟨hnone, hsome⟩ := hp src s
    by_cases h : run d src s = []
    · rw [hnone h, Fuel.ok_bind, runs_drop_succ h]
      exact ih (fun e he => (hlast e he).trans (by omega)) (by omega) (by omega)
    · obtain ⟨caps, hmatch, hcaps⟩ := hsome h
      have hlen := List.length_pos_iff.mpr h
      have hne : ¬ some (s + (run d src s).length) = lastmatch := by
        intro he
        have := hlast _ he.symm
        omega
      have hle := run_length_le (d := d) (Nat.le_of_not_lt hend)
      rw [hmatch, Fuel.ok_bind]
      simp only [if_neg hne]
      rw [hcaps, Fuel.ok_bind, ih (by simp) (by omega) (by omega), runs_drop h]
      rfl

/-- `gmatch` gives the runs, one after the other. -/
theorem gmatch_runs (hp : TakesRuns d p) (src : Str) :
    gmatch src p = .ok ((runs d src).map fun v => [.str v]) :=
  gmatch_aux_runs hp (s := 0) (by simp) (by omega) (by simp only [turns]; omega)

variable {σ : Type} {repl : List Captured → σ → Res (Option Str × σ)} {f : σ → Str → σ}

/-- `gsub` calls the replacement with the runs, one after the other. -/
theorem loop_runs (hp : TakesRuns d p) (hrepl : ∀ v acc, repl [.str v] acc = .ok (none, f acc v))
    (src : Str) (k : Nat) {g : Gsub σ} (hlast : ∀ e ∈ g.lastmatch, e ≤ g.src) (hn : g.n ≤ g.src)
    (hsrc : g.src ≤ src.length) (hk : src.length < k + g.src) :
    ∃ g', Gsub.loop src p false repl k g = .ok g' ∧
      g'.acc = (runs d (src.drop g.src)).foldl f g.acc := by
  induction k generalizing g with
  | zero => omega
  | succ k ih =>
    rw [Gsub.loop, if_neg (by omega), Gsub.turn]
    obtain ⟨hnone, hsome⟩ := hp src g.src
    by_cases h : run d src g.src = []
    · rw [hnone h, Fuel.ok_bind, Fuel.ok_bind]
      by_cases hs : g.src = src.length
      · refine ⟨g, ?_, ?_⟩
        · simp [hs]
        · rw [hs, List.drop_length, runs_nil]
          rfl
      · rw [List.getElem?_eq_getElem (by omega), runs_drop_succ h]
        exact ih (g := { g with src := g.src + 1, b := g.b ++ [src[g.src]] })
          (fun e he => (hlast e he).trans (Nat.le_succ _)) (hn.trans (Nat.le_succ _))
          (by show g.src + 1 ≤ _; omega) (by show _ < k + (g.src + 1); omega)
    · obtain ⟨caps, hmatch, hcaps⟩ := hsome h
      have hlen := List.length_pos_iff.mpr h
      have hle := run_length_le (d := d) hsrc
      have hne : ¬ some (g.src + (run d src g.src).length) = g.lastmatch := by
        intro he
        have := hlast _ he.symm
        omega
      rw [hmatch, Fuel.ok_bind]
      simp only [if_neg hne]
      rw [hcaps, Fuel.ok_bind, hrepl, Fuel.ok_bind, Fuel.ok_bind, runs_drop h, List.foldl_cons]
      exact ih (by simp) (by show g.n + 1 ≤ g.src + _; omega) hle
        (by show _ < k + (g.src + _); omega)

theorem gsub_runs (hp : TakesRuns d p) (hanchor : p.head? ≠ some 94)
    (repl : List Captured → σ → Res (Option Str × σ)) (f : σ → Str → σ)
    (hrepl : ∀ v acc, repl [.str v] acc = .ok (none, f acc v)) (src : Str) (acc : σ) :
    ∃ r, gsub src p repl acc = .ok r ∧ r.2.2 = (runs d src).foldl f acc := by
  obtain ⟨g, hloop, hacc⟩ := loop_runs hp hrepl src (turns src) (g := ⟨0, none, 0, [], acc⟩)
    (by simp) le_rfl (Nat.zero_le _) (by simp only [turns]; omega)
  refine ⟨(g.b ++ src.drop g.src, g.n, g.acc), ?_, hacc⟩
  simp only [gsub, anchored, if_neg hanchor, hloop, Fuel.ok_bind]

/-! ## No match -/

/-- The `%` takes the bracket behind it, so that the set has no end. -/
theorem matchAt_unclosed :
    matchAt src s (ofRun L_ESC []) = raise "malformed pattern (missing ']')" := rfl

theorem matchAt_unclosed_captured :
    matchAt src s (40 :: ofRun L_ESC [41]) = raise "malformed pattern (missing ']')" := rfl

theorem gmatch_raise {msg : String} (h : matchAt src 0 p = raise msg) :
    gmatch src p = raise msg := by
  rw [gmatch, turns, gmatch_aux, if_neg (Nat.not_lt_zero _), h]
  rfl

theorem gsub_raise {msg : String} (hanchor : p.head? ≠ some 94) (h : matchAt src 0 p = raise msg)
    (acc : σ) : gsub src p repl acc = raise msg := by
  have hloop : Gsub.loop src p false repl (turns src) ⟨0, none, 0, [], acc⟩ = raise msg := by
    rw [turns, Gsub.loop, if_neg (by simp), Gsub.turn, h]
    rfl
  simp only [gsub, anchored, if_neg hanchor, hloop]
  rfl

end SkynetHotfix.Lua.Pattern
