import Mathlib.Data.List.TakeWhile
import SkynetHotfix.Lua.Pattern

/-!
# The files of a directory

`get_file_ext` and `open_path` of `common/base/util.lua`. The pattern of `get_file_ext` finds the
`extension`, from the last dot that is neither the first nor the last byte (`get_file_ext_eq`).

`open_path` would load each file that is wanted (`openFiles_loads`), but it registers the files
with a `file_montior` that only `configtool.lua` knows, as a local function: the first file that is
wanted raises, when it has been applied and closed (`open_path_iff`).
-/

namespace SkynetHotfix.Util

open Lua Pattern

/-- `get_file_ext(str)`; the pattern is `^.+(%..+)$`. -/
def get_file_ext (str : Str) : Res (Option Captured) := do
  let values ← str_match str [94, 46, 43, 40, 37, 46, 46, 43, 41, 36]
  .ok (values.bind List.head?)

/-- What a path leads to. -/
inductive Mode
  | directory
  | other
  deriving DecidableEq

/-- The files: `lfs.attributes` with its error, `lfs.dir`, and whether `io.open` gives a file. -/
structure Files where
  attributes : Str → Except String Mode
  dir : Str → List Str
  io_open : Str → Bool

/-- What happens to a file. -/
inductive Event
  | apply (f_full : Str)
  | close (f_full : Str)
  | montior (f_full : Str)
  deriving DecidableEq

/-- What a callback comes to with a file, after what has happened: its outcome, and whether it has
closed the file. -/
abbrev Callback := List Event → Str → Except String Unit × Bool

/-- The loop of `open_path`, with the global `file_montior`: how it ends, and what has happened. -/
def openFiles (fs : Files) (file_montior : Option (Str → Except String Unit)) (dir : Str)
    (ext : Option Str) (callback : Callback) :
    List Str → List Event → Except (Option String) Unit × List Event
  | [], log => (.ok (), log)
  | f :: names, log =>
    if f = [46] ∨ f = [46, 46] then openFiles fs file_montior dir ext callback names log
    else
      match get_file_ext f with
      | .error err => (.error err, log)
      | .ok f_ext =>
        let f_full := dir ++ [47] ++ f
        if f_ext = ext.map .str ∧ fs.io_open f_full then
          -- `pcall` drops the outcome
          let (_, closed) := callback log f_full
          let log := log ++ [.apply f_full]
          if closed then (.error (some "attempt to use a closed file"), log)
          else
            let log := log ++ [.close f_full]
            match file_montior with
            | none => (.error (some "attempt to call a nil value (global 'file_montior')"), log)
            | some file_montior =>
              match file_montior f_full with
              | .error err => (.error (some err), log)
              | .ok _ =>
                openFiles fs (some file_montior) dir ext callback names (log ++ [.montior f_full])
        else openFiles fs file_montior dir ext callback names log

/-- The global `file_montior`: `configtool.lua` has it as a local function, and nothing else defines
it. -/
def file_montior : Option (Str → Except String Unit) := none

/-- `open_path(path, ext, callback)` -/
def open_path (fs : Files) (path : Str) (ext : Option Str) (callback : Callback) :
    Except (Option String) Unit × List Event :=
  match fs.attributes path with
  | .error err => (.error (some err), [])
  | .ok .directory => openFiles fs file_montior path ext callback (fs.dir path) []
  | .ok .other => (.ok (), [])

/-! ## The extension of a file -/

/-- A dot that is neither the first byte nor the last. -/
def isDot (f : Str) (s : Nat) : Bool := 1 ≤ s && f[s]? = some 46 && s + 1 < f.length

/-- What the name of a file has from the last such dot on. -/
def extension (f : Str) : Option Str :=
  (((List.range f.length).filter (isDot f)).getLast?).map fun s => f.drop s

variable {src : Str} {s : Nat} {p : Str} {caps : List Capture}
variable {call goto : Nat → Str → List Capture → Matched}

/-- `.+` -/
theorem step_any : step src call goto s (46 :: 43 :: p) caps =
    if s < src.length then
      max_expand (fun s => call s p caps) (s + 1) (src.length - (s + 1))
    else .ok none := by
  have hsingle : Item.any.single = fun _ => true := rfl
  have hrep : repetitions src (s + 1) .any = src.length - (s + 1) := by
    rw [repetitions, hsingle, List.takeWhile_eq_self_iff.mpr (fun _ _ => rfl), List.length_drop]
  have hmatch : singlematch src s .any = decide (s < src.length) := by
    rw [singlematch, hsingle]
    by_cases h : s < src.length <;> simp [h]
  have hdflt : step src call goto s (46 :: 43 :: p) caps =
      dflt src call goto s 46 (43 :: p) caps := by
    simp [step, L_ESC]
  have hclass : classend 46 (43 :: p) = .ok (.any, 43 :: p) := rfl
  rw [hdflt, dflt, hclass, Fuel.ok_bind]
  simp only [hmatch, hrep, List.headD_cons, List.tail_cons]
  by_cases h : s < src.length <;> simp [h]

/-- `%.` -/
theorem step_dot (hp : p.headD 0 = 46) : step src call goto s (37 :: 46 :: p) caps =
    if src[s]? = some 46 then goto (s + 1) p caps else .ok none := by
  have hdflt : step src call goto s (37 :: 46 :: p) caps =
      dflt src call goto s 37 (46 :: p) caps := by
    simp [step, L_ESC, escape, isdigit, between]
  have hclass : classend 37 (46 :: p) = .ok (.escaped 46, p) := rfl
  have hsingle : (Item.escaped 46).single = fun c => decide (46 = c) := rfl
  have hmatch : singlematch src s (.escaped 46) = decide (src[s]? = some 46) := by
    rw [singlematch, hsingle]
    cases src[s]? <;> simp [eq_comm]
  rw [hdflt, dflt, hclass, Fuel.ok_bind]
  simp only [hmatch, hp]
  by_cases h : src[s]? = some 46 <;> simp [h]

theorem step_close (e : Nat) : step src call goto e (41 :: p) [⟨s, .unfinished⟩] =
    call e p [⟨s, .closed (e - s)⟩] := by
  simp [step, end_capture, capture_to_close, Fuel.ok_bind]

theorem step_end : step src call goto src.length [36] caps = .ok (some (src.length, caps)) := by
  simp [step]

/-- `%..+)$` behind the start of a capture: a dot with something behind it takes what is left. -/
theorem doMatch_dot : doMatch src 8 198 s [37, 46, 46, 43, 41, 36] [⟨s, .unfinished⟩] =
    .ok (if src[s]? = some 46 ∧ s + 1 < src.length then
      some (src.length, [⟨s, .closed (src.length - s)⟩]) else none) := by
  show step src (doMatch src 7 197) (doMatch src 7 198) s _ _ = _
  rw [step_dot rfl]
  by_cases hdot : src[s]? = some 46
  · rw [if_pos hdot]
    show step src (doMatch src 6 197) (doMatch src 6 198) (s + 1) (46 :: 43 :: [41, 36]) _ = _
    rw [step_any]
    by_cases hs : s + 1 < src.length
    · rw [if_pos hs, if_pos ⟨hdot, hs⟩]
      refine max_expand_first ?_
      rw [Nat.add_sub_cancel' (by omega)]
      show step src (doMatch src 5 196) (doMatch src 5 197) src.length [41, 36] _ = _
      rw [step_close]
      exact step_end
    · rw [if_neg hs, if_neg fun h => hs h.2]
  · rw [if_neg hdot, if_neg fun h => hdot h.1]

theorem getLast_filter_succ (q : Nat → Bool) (n : Nat) :
    ((List.range (n + 1)).filter q).getLast? =
      if q n then some n else ((List.range n).filter q).getLast? := by
  rw [List.range_succ, List.filter_append]
  by_cases hn : q n <;> simp [hn]

/-- The expansion that is taken is the largest with a property. -/
theorem max_expand_last {next : Nat → Matched} {q : Nat → Bool} {res : Nat → Nat × List Capture}
    (hnext : ∀ s, 1 ≤ s → next s = .ok (if q s then some (res s) else none)) (hq : q 0 = false)
    (i : Nat) : max_expand next 1 i =
      .ok ((((List.range (i + 2)).filter q).getLast?).map res) := by
  induction i with
  | zero =>
    rw [max_expand, hnext 1 le_rfl, getLast_filter_succ, getLast_filter_succ, hq]
    by_cases h1 : q 1 <;> simp [h1]
  | succ i ih =>
    have hn : 1 + (i + 1) = i + 2 := by omega
    rw [max_expand, hn, hnext _ (by omega), Fuel.ok_bind, getLast_filter_succ]
    by_cases h : q (i + 2)
    · simp [h]
    · simp only [h, if_false, Bool.false_eq_true]
      exact ih

/-- The pattern behind its anchor takes the whole name, and captures it from its last dot on. -/
theorem matchAt_ext (f : Str) : matchAt f 0 [46, 43, 40, 37, 46, 46, 43, 41, 36] =
    .ok ((((List.range f.length).filter (isDot f)).getLast?).map fun s =>
      (f.length, [⟨s, .closed (f.length - s)⟩])) := by
  have hnext : ∀ s, 1 ≤ s → doMatch f 9 199 s [40, 37, 46, 46, 43, 41, 36] [] =
      .ok (if isDot f s then some (f.length, [⟨s, .closed (f.length - s)⟩]) else none) := by
    intro s hs
    have hopen : doMatch f 9 199 s [40, 37, 46, 46, 43, 41, 36] [] =
        doMatch f 8 198 s [37, 46, 46, 43, 41, 36] [⟨s, .unfinished⟩] := step_open (by decide)
    have hdot : isDot f s = decide (f[s]? = some 46 ∧ s + 1 < f.length) := by
      simp [isDot, hs]
    rw [hopen, doMatch_dot, hdot]
    simp only [decide_eq_true_eq]
  rw [matchAt_eq (n := 9) rfl, step_any]
  by_cases hf : 0 < f.length
  · have hlen : f.length - (0 + 1) + 2 = f.length + 1 := by omega
    have hend : isDot f f.length = false := by simp [isDot]
    rw [if_pos hf, max_expand_last hnext rfl, hlen, getLast_filter_succ, hend]
    rfl
  · rw [if_neg hf]
    obtain rfl : f = [] := by simpa using hf
    rfl

theorem get_file_ext_eq (f : Str) : get_file_ext f = .ok ((extension f).map .str) := by
  have hsearch : str_match f [94, 46, 43, 40, 37, 46, 46, 43, 41, 36] =
      .ok ((extension f).map fun v => [.str v]) := by
    rw [str_match]
    show search f [46, 43, 40, 37, 46, 46, 43, 41, 36] true f.length 0 = _
    have hmatch := matchAt_ext f
    rw [extension]
    cases hs : ((List.range f.length).filter (isDot f)).getLast? with
    | none =>
      rw [hs] at hmatch
      exact search_none hmatch _
    | some s =>
      rw [hs] at hmatch
      have htake : (f.drop s).take (f.length - s) = f.drop s := by
        rw [← List.length_drop, List.take_length]
      rw [search_some hmatch]
      show Except.ok (some [Captured.str ((f.drop s).take (f.length - s))]) = _
      rw [htake]
      rfl
  rw [get_file_ext, hsearch, Fuel.ok_bind]
  cases extension f <;> rfl

/-! ## The files of a directory -/

/-- A file that can be opened and has the extension. -/
def want (fs : Files) (dir : Str) (ext : Option Str) (f : Str) : Bool :=
  !(f = [46] || f = [46, 46]) && (extension f = ext && fs.io_open (dir ++ [47] ++ f))

/-- The paths of these files. -/
def wanted (fs : Files) (dir : Str) (ext : Option Str) (names : List Str) : List Str :=
  (names.filter (want fs dir ext)).map (dir ++ [47] ++ ·)

/-- Each file is handed to the callback, closed and registered, one after the other. -/
def loaded (files : List Str) : List Event :=
  files.flatMap fun f => [.apply f, .close f, .montior f]

/-- All files that are wanted are loaded, and no other, without an error. -/
def Loads (fs : Files) (path : Str) (ext : Option Str) (callback : Callback) : Prop :=
  open_path fs path ext callback = (.ok (), loaded (wanted fs path ext (fs.dir path)))

variable {fs : Files} {dir path : Str} {ext : Option Str} {callback : Callback} {names : List Str}
variable {f : Str} {montior : Option (Str → Except String Unit)} {log : List Event}

theorem openFiles_skip (hf : want fs dir ext f = false) :
    openFiles fs montior dir ext callback (f :: names) log =
      openFiles fs montior dir ext callback names log := by
  rw [openFiles, get_file_ext_eq]
  split_ifs with hdots
  · rfl
  · refine if_neg ?_
    rintro ⟨hext, hopen⟩
    have hf_ext : extension f = ext :=
      Option.map_injective (fun _ _ h => Captured.str.inj h) hext
    obtain ⟨hdot, hdotdot⟩ := not_or.mp hdots
    have hwant : want fs dir ext f = true := by simpa [want, hdot, hdotdot, hf_ext] using hopen
    rw [hwant] at hf
    cases hf

/-- What a turn does with a file that is wanted. -/
theorem openFiles_want (hf : want fs dir ext f) :
    openFiles fs montior dir ext callback (f :: names) log =
      if (callback log (dir ++ [47] ++ f)).2 then
        (.error (some "attempt to use a closed file"), log ++ [.apply (dir ++ [47] ++ f)])
      else
        let log := log ++ [.apply (dir ++ [47] ++ f)] ++ [.close (dir ++ [47] ++ f)]
        match montior with
        | none => (.error (some "attempt to call a nil value (global 'file_montior')"), log)
        | some file_montior =>
          match file_montior (dir ++ [47] ++ f) with
          | .error err => (.error (some err), log)
          | .ok _ => openFiles fs montior dir ext callback names
              (log ++ [.montior (dir ++ [47] ++ f)]) := by
  simp only [want, Bool.and_eq_true, Bool.not_eq_true', decide_eq_true_eq] at hf
  obtain ⟨hdots, rfl, hopen⟩ := hf
  rw [openFiles, get_file_ext_eq, if_neg (by simpa using hdots)]
  simp only
  rw [if_pos ⟨trivial, hopen⟩]
  cases montior <;> rfl

/-- With a global `file_montior`, and callbacks that leave their file open, all that is wanted would
be loaded, whichever callbacks raise. -/
theorem openFiles_loads {file_montior : Str → Except String Unit}
    (hmontior : ∀ f, file_montior f = .ok ()) (hopen : ∀ log f, (callback log f).2 = false) :
    openFiles fs (some file_montior) dir ext callback names log =
      (.ok (), log ++ loaded (wanted fs dir ext names)) := by
  induction names generalizing log with
  | nil => simp [openFiles, wanted, loaded]
  | cons f names ih =>
    by_cases hf : want fs dir ext f
    · rw [openFiles_want hf, hopen]
      simp only [Bool.false_eq_true, if_false, hmontior]
      rw [ih]
      simp [wanted, loaded, hf]
    · rw [openFiles_skip (by simpa using hf), ih]
      simp [wanted, hf]

/-- Without it the first such file raises. -/
theorem openFiles_raises (h : wanted fs dir ext names ≠ []) (callback : Callback)
    (log : List Event) :
    ∃ err, (openFiles fs none dir ext callback names log).1 = .error err := by
  induction names with
  | nil => exact absurd rfl h
  | cons f names ih =>
    by_cases hf : want fs dir ext f
    · rw [openFiles_want hf]
      split
      · exact ⟨_, rfl⟩
      · exact ⟨_, rfl⟩
    · rw [openFiles_skip (by simpa using hf)]
      refine ih ?_
      simpa [wanted, hf] using h

theorem openFiles_none (h : wanted fs dir ext names = []) :
    openFiles fs montior dir ext callback names log = (.ok (), log) := by
  induction names with
  | nil => rfl
  | cons f names ih =>
    have hf : want fs dir ext f = false := by
      by_contra hf
      simp [wanted, hf] at h
    rw [openFiles_skip hf]
    refine ih ?_
    simpa [wanted, hf] using h

/-- A directory is loaded just when none of its files is wanted. -/
theorem open_path_iff (hpath : fs.attributes path = .ok .directory) (ext : Option Str)
    (callback : Callback) :
    Loads fs path ext callback ↔ wanted fs path ext (fs.dir path) = [] := by
  rw [Loads, open_path, hpath]
  constructor
  · intro h
    by_contra hne
    obtain ⟨err, herr⟩ := openFiles_raises hne callback []
    have hok := congrArg Prod.fst h
    rw [show (openFiles fs file_montior path ext callback (fs.dir path) []).1 = _ from herr] at hok
    cases hok
  · intro h
    rw [h]
    exact openFiles_none h

/-- A directory `d` with these names, all of which can be opened. -/
def dirOf (names : List Str) : Files := ⟨fun _ => .ok .directory, fun _ => names, fun _ => true⟩

theorem open_path_iff_other :
    Loads (dirOf [[46], [46, 46], [97]]) [100] (some [46, 106]) fun _ _ => (.ok (), false) :=
  (open_path_iff rfl (some [46, 106]) _).mpr (by decide)

/-- One file with the extension. -/
theorem first_file_raises : ¬ ∀ fs path, fs.attributes path = .ok .directory → ∀ ext callback,
    (∀ log f, (callback log f).2 = false) → Loads fs path ext callback := by
  intro h
  have hloads := h (dirOf [[97, 46, 106]]) [100] rfl (some [46, 106]) (fun _ _ => (.ok (), false))
    fun _ _ => rfl
  have hwant : wanted (dirOf [[97, 46, 106]]) [100] (some [46, 106]) [[97, 46, 106]] ≠ [] := by
    decide
  obtain ⟨err, herr⟩ := openFiles_raises hwant (fun _ _ => (.ok (), false)) []
  have hok := herr.symm.trans (congrArg Prod.fst hloads)
  cases hok

end SkynetHotfix.Util
