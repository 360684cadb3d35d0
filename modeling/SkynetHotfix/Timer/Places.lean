import Mathlib.Data.List.Nodup
import SkynetHotfix.Timer.Numbered

/-!
# Timers: where a callback is

A callback that is still to be called, or has not returned, is in the slot of a later tick, is still
to be met by a tick under way, or runs (`At`). For each thing that a step can do there is a lemma
that says where the callbacks are after it.

As long as `register` hands out `idx`s that are not at any place (`Spare`), `timer_idxs` knows the
place of each callback by its key, so an `idx` is at one place at most (`Placed`).
-/

namespace SkynetHotfix.Timer.Overlap

open Function (update)
open Lua (Number NumKey intKey)

variable {F : Type}

/-- Where a callback is. -/
inductive Place where
  /-- in the slot of a later tick -/
  | later (s : NumKey)
  /-- still to be met by the tick that started at `inc` -/
  | todo (inc : Int64)
  /-- called by that tick -/
  | running (inc : Int64)
deriving DecidableEq

/-- The key of its slot. -/
def Place.key : Place → NumKey
  | later s => s
  | todo inc => intKey inc
  | running inc => intKey inc

theorem Place.later_ne_running (s : NumKey) (inc : Int64) : later s ≠ running inc := by
  intro h
  cases h

theorem Place.todo_ne_running (inc inc' : Int64) : todo inc ≠ running inc' := by
  intro h
  cases h

/-- The callback is there under `i`. -/
def At (w : World Number Int64 NumKey F) : Place → Nat → Callback Number F Nat → Prop
  | .later s, i, callback => entry w.timer s i = some callback ∧ intKey w.timer.inc < s
  | .todo inc, i, callback =>
    ∃ tick ∈ w.ticks, tick.inc = inc ∧ i ∈ tick.todo ∧ tick.slot i = some callback
  | .running inc, i, callback => ∃ tick ∈ w.ticks, tick.inc = inc ∧ tick.current = some (i, callback)

/-- `inc` goes up. -/
def World.Below (w : World Number Int64 NumKey F) : Op Number F → Prop
  | .start _ => w.timer.inc < Int64.maxValue
  | _ => True

/-- The loop of a tick meets each `idx` of its slot once. -/
structure Tick.Orderly (tick : Tick Number Int64 F) : Prop where
  nodup : tick.todo.Nodup
  held : ∀ i ∈ tick.todo, (tick.slot i).isSome
  current : ∀ i callback, tick.current = some (i, callback) → i ∉ tick.todo

/-- The ticks under way started one after the other, none later than now. -/
structure Orderly (w : World Number Int64 NumKey F) : Prop where
  sorted : (w.ticks.map Tick.inc).Pairwise (· < ·)
  le : ∀ tick ∈ w.ticks, tick.inc ≤ w.timer.inc
  ticks : ∀ tick ∈ w.ticks, tick.Orderly

variable {w w' : World Number Int64 NumKey F} {op : Op Number F} {i : Nat}
  {callback : Callback Number F Nat} {p : Place}

theorem toInt_succ {inc : Int64} (h : inc < Int64.maxValue) :
    (inc + 1).toInt = inc.toInt + 1 := by
  rw [Int64.lt_iff_toInt_lt] at h
  have hle := Int64.le_toInt inc
  have hmax : Int64.maxValue.toInt = 2 ^ 63 - 1 := rfl
  rw [Int64.toInt_add, Int64.toInt_one, Int.bmod_eq_of_le] <;> omega

theorem lt_succ {inc : Int64} (h : inc < Int64.maxValue) : inc < inc + 1 := by
  rw [Int64.lt_iff_toInt_lt, toInt_succ h]
  omega

/-! ## Ticks -/

/-- Ticks are told apart by when they started. -/
theorem Orderly.index (h : Orderly w) {m n : Nat} {tick tick' : Tick Number Int64 F}
    (hm : w.ticks[m]? = some tick) (hn : w.ticks[n]? = some tick') (he : tick.inc = tick'.inc) :
    m = n := by
  have hnd : (w.ticks.map Tick.inc).Nodup := h.sorted.imp fun hlt => Int64.ne_of_lt hlt
  obtain ⟨hlt, -⟩ := List.getElem?_eq_some_iff.mp hm
  refine (List.getElem?_inj (by simpa using hlt) hnd).mp ?_
  rw [List.getElem?_map, List.getElem?_map, hm, hn, Option.map_some, Option.map_some, he]

theorem Orderly.unique (h : Orderly w) {tick tick' : Tick Number Int64 F} (hm : tick ∈ w.ticks)
    (hm' : tick' ∈ w.ticks) (he : tick.inc = tick'.inc) : tick = tick' := by
  obtain ⟨m, hm⟩ := List.mem_iff_getElem?.mp hm
  obtain ⟨n, hn⟩ := List.mem_iff_getElem?.mp hm'
  obtain rfl := h.index hm hn he
  exact Option.some.inj (hm.symm.trans hn)

/-- A tick that goes on stays the one that started then. -/
theorem Orderly.exists_set (h : Orderly w) {n : Nat} {tick : Tick Number Int64 F}
    (tick' : Tick Number Int64 F) (hn : w.ticks[n]? = some tick) (he : tick'.inc = tick.inc) {inc : Int64}
    {Q : Tick Number Int64 F → Prop} :
    (∃ t ∈ w.ticks.set n tick', t.inc = inc ∧ Q t) ↔
      (inc = tick.inc ∧ Q tick') ∨ (inc ≠ tick.inc ∧ ∃ t ∈ w.ticks, t.inc = inc ∧ Q t) := by
  obtain ⟨hlt, -⟩ := List.getElem?_eq_some_iff.mp hn
  constructor
  · rintro ⟨t, hm, rfl, hq⟩
    obtain ⟨m, hm⟩ := List.mem_iff_getElem?.mp hm
    rw [List.getElem?_set] at hm
    split at hm
    · obtain rfl := Option.some.inj hm
      exact .inl ⟨he, hq⟩
    · rename_i hmn
      exact .inr ⟨fun e => hmn (h.index hm hn e).symm, t, List.mem_of_getElem? hm, rfl, hq⟩
  · rintro (⟨rfl, hq⟩ | ⟨hne, t, hm, rfl, hq⟩)
    · exact ⟨tick', List.mem_of_getElem? (by rw [List.getElem?_set_self hlt]), he, hq⟩
    · obtain ⟨m, hm⟩ := List.mem_iff_getElem?.mp hm
      refine ⟨t, List.mem_of_getElem? (i := m) ?_, rfl, hq⟩
      rw [List.getElem?_set_ne, hm]
      rintro rfl
      obtain rfl := Option.some.inj (hn.symm.trans hm)
      exact hne rfl

/-- A tick that ends is no more among them. -/
theorem Orderly.exists_eraseIdx (h : Orderly w) {n : Nat} {tick : Tick Number Int64 F}
    (hn : w.ticks[n]? = some tick) {inc : Int64} {Q : Tick Number Int64 F → Prop} :
    (∃ t ∈ w.ticks.eraseIdx n, t.inc = inc ∧ Q t) ↔
      inc ≠ tick.inc ∧ ∃ t ∈ w.ticks, t.inc = inc ∧ Q t := by
  constructor
  · rintro ⟨t, hm, rfl, hq⟩
    obtain ⟨m, hne, hm⟩ := List.mem_eraseIdx_iff_getElem?.mp hm
    exact ⟨fun e => hne (h.index hm hn e), t, List.mem_of_getElem? hm, rfl, hq⟩
  · rintro ⟨hne, t, hm, rfl, hq⟩
    obtain ⟨m, hm⟩ := List.mem_iff_getElem?.mp hm
    refine ⟨t, List.mem_eraseIdx_iff_getElem?.mpr ⟨m, ?_, hm⟩, rfl, hq⟩
    rintro rfl
    obtain rfl := Option.some.inj (hn.symm.trans hm)
    exact hne rfl

theorem orderly_new (interval : Option Nat) :
    Orderly (.new interval : World Number Int64 NumKey F) := by
  constructor <;> simp [World.new]

/-- What the slot of a tick that starts holds is due. -/
theorem due_slot {slot : Slot Number F Nat}
    (hslot : (due w.timer).callbacks (Numbers.key Number (due w.timer).inc) = some slot) (i : Nat) :
    entry (due w.timer) (Numbers.key Number (due w.timer).inc) i = slot i := by
  rw [entry, hslot, Option.bind_some]

/-- A tick goes on. -/
theorem Orderly.set (h : Orderly w) {n : Nat} {tick tick' : Tick Number Int64 F}
    (ho : tick'.Orderly) (hn : w.ticks[n]? = some tick) (he : tick'.inc = tick.inc)
    {t : State Number Int64 NumKey F Nat} (ht : t.inc = w.timer.inc)
    {log : List (Event Number Int64)} :
    Orderly { w with timer := t, ticks := w.ticks.set n tick', log := log } := by
  obtain ⟨hlt, hget⟩ := List.getElem?_eq_some_iff.mp hn
  have hmap : (w.ticks.set n tick').map Tick.inc = w.ticks.map Tick.inc := by
    rw [List.map_set, he, ← hget, ← List.getElem_map Tick.inc, List.set_getElem_self]
    simpa using hlt
  refine ⟨?_, fun t' hm => ?_, fun t' hm => ?_⟩
  · simp only [hmap]
    exact h.sorted
  · rw [ht]
    rcases List.mem_or_eq_of_mem_set hm with hm | rfl
    · exact h.le t' hm
    · exact he ▸ h.le tick (List.mem_of_getElem? hn)
  · rcases List.mem_or_eq_of_mem_set hm with hm | rfl
    · exact h.ticks t' hm
    · exact ho

/-- A tick ends. -/
theorem Orderly.eraseIdx (h : Orderly w) (n : Nat) {t : State Number Int64 NumKey F Nat}
    (ht : t.inc = w.timer.inc) : Orderly { w with timer := t, ticks := w.ticks.eraseIdx n } := by
  have hsub := List.eraseIdx_sublist w.ticks n
  exact ⟨h.sorted.sublist (hsub.map _), fun tick hm => ht ▸ h.le tick (hsub.subset hm),
    fun tick hm => h.ticks tick (hsub.subset hm)⟩

theorem Orderly.does (h : Orderly w) (hdoes : Does w op w') (hl : w.Legal op) (hb : w.Below op) :
    Orderly w' := by
  cases hdoes with
  | nothing => exact h
  | register hsec ht =>
    obtain ⟨t, e, hinc, -⟩ := register_of_pos w.timer hsec w.tags _ _ _
    obtain ⟨rfl, -⟩ := Prod.mk.inj (Option.some.inj (e.symm.trans ht))
    exact ⟨h.sorted, fun tick hm => hinc ▸ h.le tick hm, h.ticks⟩
  | unregister idx => exact ⟨h.sorted, fun tick hm => by simpa using h.le tick hm, h.ticks⟩
  | idle hslot =>
    refine ⟨h.sorted, fun tick hm => ?_, h.ticks⟩
    rw [due_inc]
    exact Int64.le_of_lt (Int64.lt_of_le_of_lt (h.le tick hm) (lt_succ hb))
  | @start order slot hslot =>
    have hlt : ∀ tick ∈ w.ticks, tick.inc < (due w.timer).inc := fun tick hm => by
      rw [due_inc]
      exact Int64.lt_of_le_of_lt (h.le tick hm) (lt_succ hb)
    have hnew : Tick.Orderly ⟨(due w.timer).inc, slot, order, none⟩ := by
      refine ⟨hl.1, fun i hi => ?_, fun _ _ => nofun⟩
      have hdue := (hl.2 i).mp hi
      rwa [due_slot hslot] at hdue
    refine ⟨?_, fun tick hm => ?_, fun tick hm => ?_⟩
    · rw [List.map_append, List.pairwise_append]
      refine ⟨h.sorted, List.pairwise_singleton .., fun inc hm inc' hm' => ?_⟩
      obtain ⟨tick, htick, rfl⟩ := List.mem_map.mp hm
      obtain rfl := List.mem_singleton.mp hm'
      exact hlt tick htick
    · rcases List.mem_append.mp hm with hm | hm
      · exact Int64.le_of_lt (hlt tick hm)
      · obtain rfl := List.mem_singleton.mp hm
        exact Int64.le_refl _
    · rcases List.mem_append.mp hm with hm | hm
      · exact h.ticks tick hm
      · obtain rfl := List.mem_singleton.mp hm
        exact hnew
  | @invoke n inc slot idx todo callback hn hidx =>
    obtain ⟨hnd, hheld, -⟩ := h.ticks _ (List.mem_of_getElem? hn)
    obtain ⟨hnm, hnd⟩ := List.nodup_cons.mp hnd
    have ho : Tick.Orderly ⟨inc, slot, todo, some (idx, callback)⟩ := by
      refine ⟨hnd, fun i hi => hheld i (List.mem_cons_of_mem _ hi), ?_⟩
      rintro _ _ ⟨⟩
      exact hnm
    exact h.set ho hn rfl rfl
  | @returns n inc slot todo idx callback now hn =>
    obtain ⟨hnd, hheld, -⟩ := h.ticks _ (List.mem_of_getElem? hn)
    have ho : Tick.Orderly ⟨inc, slot, todo, none⟩ := ⟨hnd, hheld, fun _ _ => nofun⟩
    exact h.set ho hn rfl (reschedule_inc ..)
  | raises hn => exact h.eraseIdx _ rfl
  | finish hn => exact h.eraseIdx _ rfl

/-! ## What a step does to the places -/

/-- `register` overwrites what its slot has under its `idx`. -/
theorem at_register {sec : Number} {f : F} {loop : Bool} {now : Int}
    {t : State Number Int64 NumKey F Nat} {log : List (Event Number Int64)} (hsec : sec.Pos)
    (ht : register w.timer sec w.tags f loop now = some (t, nextIdx w.timer.timer_idx)) :
    At { w with timer := t, tags := w.tags + 1, log := log } p i callback ↔
      if p = .later (sec.add w.timer.inc).key ∧ i = nextIdx w.timer.timer_idx
      then callback = ⟨f, w.tags, sec, loop, now⟩ ∧
        intKey w.timer.inc < (sec.add w.timer.inc).key
      else At w p i callback := by
  obtain ⟨t', e, hinc, -, -, -, he⟩ := register_of_pos w.timer hsec w.tags f loop now
  obtain ⟨rfl, -⟩ := Prod.mk.inj (Option.some.inj (e.symm.trans ht))
  cases p with
  | later s =>
    simp only [At, he, hinc, Place.later.injEq]
    have hplus : Numbers.plus w.timer.inc sec = (sec.add w.timer.inc).key := rfl
    rw [hplus]
    by_cases hs : s = (sec.add w.timer.inc).key ∧ i = nextIdx w.timer.timer_idx
    · rw [if_pos hs, if_pos hs, hs.1]
      simp only [Option.some.injEq, eq_comm]
    · rw [if_neg hs, if_neg hs]
  | todo inc => simp [At]
  | running inc => simp [At]

theorem at_unregister {idx : Nat} {log : List (Event Number Int64)} :
    At { w with timer := unregister w.timer (some idx), log := log } p i callback ↔
      At w p i callback := by
  cases p <;> simp [At]

/-- A tick that starts leaves what is in the slots of later ones. -/
theorem at_due_later (hb : w.timer.inc < Int64.maxValue) {s : NumKey}
    {ticks : List (Tick Number Int64 F)} :
    At { w with timer := due w.timer, ticks := ticks } (.later s) i callback ↔
      At w (.later s) i callback ∧ intKey (w.timer.inc + 1) < s := by
  have hlt : intKey w.timer.inc < intKey (w.timer.inc + 1) := Lua.intKey_lt.mpr (lt_succ hb)
  have hkey : Numbers.key Number (Numbers.succ Number w.timer.inc) = intKey (w.timer.inc + 1) := rfl
  have hsucc : Numbers.succ Number w.timer.inc = w.timer.inc + 1 := rfl
  simp only [At, entry_due, due_inc, hsucc]
  constructor
  · rintro ⟨he, hs⟩
    rw [if_neg fun h => hs.ne h.1.symm] at he
    exact ⟨⟨he, hlt.trans hs⟩, hs⟩
  · rintro ⟨⟨he, -⟩, hs⟩
    rw [if_neg fun h => hs.ne h.1.symm]
    exact ⟨he, hs⟩

theorem at_idle (hb : w.timer.inc < Int64.maxValue) :
    At { w with timer := due w.timer } p i callback ↔
      At w p i callback ∧ ∀ s, p = .later s → intKey (w.timer.inc + 1) < s := by
  cases p with
  | later s => simpa using at_due_later hb
  | todo inc => simp [At]
  | running inc => simp [At]

/-- A tick that starts has all to meet that its slot has and that is not queued. -/
theorem at_start (hb : w.timer.inc < Int64.maxValue) {order : List Nat}
    (hl : w.Legal (.start order)) {slot : Slot Number F Nat}
    (hslot : (due w.timer).callbacks (Numbers.key Number (due w.timer).inc) = some slot) :
    At { w with timer := due w.timer, ticks := w.ticks ++ [⟨(due w.timer).inc, slot, order, none⟩] }
        p i callback ↔
      (At w p i callback ∧ ∀ s, p = .later s → intKey (w.timer.inc + 1) < s) ∨
        p = .todo (w.timer.inc + 1) ∧
          At w (.later (intKey (w.timer.inc + 1))) i callback ∧ i ∉ w.timer.unregister_idx := by
  have hlt : intKey w.timer.inc < intKey (w.timer.inc + 1) := Lua.intKey_lt.mpr (lt_succ hb)
  have hinc : (due w.timer).inc = w.timer.inc + 1 := due_inc _
  have hdue : ∀ callback, slot i = some callback ↔
      entry w.timer (intKey (w.timer.inc + 1)) i = some callback ∧
        i ∉ w.timer.unregister_idx := by
    intro callback
    have hkey : Numbers.key Number (Numbers.succ Number w.timer.inc) =
      intKey (w.timer.inc + 1) := rfl
    rw [← due_slot hslot, entry_due, due_inc, hkey]
    by_cases hq : i ∈ w.timer.unregister_idx <;> simp [hq]
  have horder : slot i = some callback → i ∈ order := by
    intro hc
    rw [hl.2 i, due_slot hslot, hc]
    rfl
  cases p with
  | later s => simpa using at_due_later hb
  | todo inc =>
    simp only [At, List.mem_append, List.mem_singleton, or_and_right, exists_or, exists_eq_left,
      hinc, reduceCtorEq, false_imp_iff, implies_true, and_true, Place.todo.injEq]
    refine or_congr_right ⟨fun ⟨he, _, hc⟩ => ?_, fun ⟨he, hc, hq⟩ => ?_⟩
    · obtain ⟨hc, hq⟩ := (hdue callback).mp hc
      exact ⟨he.symm, ⟨hc, hlt⟩, hq⟩
    · have hc := (hdue callback).mpr ⟨hc.1, hq⟩
      exact ⟨he.symm, horder hc, hc⟩
  | running inc => simp [At, or_and_right, exists_or]

/-- A tick without a slot has nothing to meet. -/
theorem not_at_idle (hslot : (due w.timer).callbacks (Numbers.key Number (due w.timer).inc) = none)
    (hq : i ∉ w.timer.unregister_idx) :
    ¬ At w (.later (intKey (w.timer.inc + 1))) i callback := by
  rintro ⟨hc, -⟩
  have he : entry (due w.timer) (Numbers.key Number (due w.timer).inc) i = none := by
    rw [entry, hslot]
    rfl
  rw [entry_due, if_neg fun h => hq h.2, due_inc] at he
  have hkey : Numbers.key Number (Numbers.succ Number w.timer.inc) =
    intKey (w.timer.inc + 1) := rfl
  rw [hkey, hc] at he
  cases he

section

variable {n : Nat} {inc : Int64} {slot : Slot Number F Nat} {idx : Nat} {todo : List Nat}
  {callback' : Callback Number F Nat} {log : List (Event Number Int64)}

/-- A callback that is called is not still to be met. -/
theorem at_invoke (ho : Orderly w) (hn : w.ticks[n]? = some ⟨inc, slot, idx :: todo, none⟩)
    (hidx : slot idx = some callback') :
    At { w with ticks := w.ticks.set n ⟨inc, slot, todo, some (idx, callback')⟩, log := log }
        p i callback ↔
      p = .running inc ∧ i = idx ∧ callback = callback' ∨
        ¬ (p = .todo inc ∧ i = idx) ∧ At w p i callback := by
  have hmem := List.mem_of_getElem? hn
  have hnd := (List.nodup_cons.mp (ho.ticks _ hmem).nodup).1
  have hself : ∀ {tick}, tick ∈ w.ticks → tick.inc = inc → tick = ⟨inc, slot, idx :: todo, none⟩ :=
    fun hm he => ho.unique hm hmem he
  cases p with
  | later s => simp [At]
  | todo j =>
    simp only [At,
      ho.exists_set ⟨inc, slot, todo, some (idx, callback')⟩ hn rfl, Place.todo.injEq, reduceCtorEq, false_and, false_or]
    by_cases hj : j = inc
    · subst hj
      simp only [true_and, ne_eq, not_true, false_and, or_false]
      constructor
      · rintro ⟨hm, hc⟩
        exact ⟨fun e => hnd (e ▸ hm), _, hmem, rfl, List.mem_cons_of_mem _ hm, hc⟩
      · rintro ⟨hi, tick, htick, he, hm, hc⟩
        obtain rfl := hself htick he
        exact ⟨(List.mem_cons.mp hm).resolve_left hi, hc⟩
    · simp [hj]
  | running j =>
    simp only [At,
      ho.exists_set ⟨inc, slot, todo, some (idx, callback')⟩ hn rfl, Place.running.injEq, reduceCtorEq, false_and, not_false_iff,
      true_and]
    by_cases hj : j = inc
    · subst hj
      simp only [true_and, ne_eq, not_true, false_and, or_false, Option.some.injEq, Prod.mk.injEq]
      constructor
      · rintro ⟨rfl, rfl⟩
        exact .inl ⟨rfl, rfl⟩
      · rintro (⟨rfl, rfl⟩ | ⟨tick, htick, he, hc⟩)
        · exact ⟨rfl, rfl⟩
        · obtain rfl := hself htick he
          cases hc
    · simp [hj]

/-- A loop timer that returns comes to the slot of its next period. -/
theorem at_returns (ho : Orderly w) {now : Int}
    (hn : w.ticks[n]? = some ⟨inc, slot, todo, some (idx, callback')⟩) :
    At { w with
        timer := reschedule w.timer idx callback' now, ticks := w.ticks.set n ⟨inc, slot, todo, none⟩ }
        p i callback ↔
      if callback'.loop = true ∧ p = .later (callback'.sec.add w.timer.inc).key ∧ i = idx
      then callback = { callback' with start_time := now } ∧
        intKey w.timer.inc < (callback'.sec.add w.timer.inc).key
      else p ≠ .running inc ∧ At w p i callback := by
  have hmem := List.mem_of_getElem? hn
  have hself : ∀ {tick}, tick ∈ w.ticks → tick.inc = inc →
      tick = ⟨inc, slot, todo, some (idx, callback')⟩ := fun hm he => ho.unique hm hmem he
  cases p with
  | later s =>
    have hplus : Numbers.plus w.timer.inc callback'.sec = (callback'.sec.add w.timer.inc).key := rfl
    simp only [At, entry_reschedule, reschedule_inc, hplus, Place.later.injEq]
    by_cases hs : callback'.loop = true ∧ s = (callback'.sec.add w.timer.inc).key ∧ i = idx
    · rw [if_pos hs, if_pos hs, hs.2.1]
      simp only [Option.some.injEq, eq_comm]
    · rw [if_neg hs, if_neg hs]
      simp
  | todo j =>
    simp only [At, ho.exists_set ⟨inc, slot, todo, none⟩ hn rfl, reduceCtorEq, false_and, and_false, if_false, ne_eq,
      not_false_iff, true_and]
    by_cases hj : j = inc
    · subst hj
      simp only [true_and, not_true, false_and, or_false]
      constructor
      · exact fun ⟨hm, hc⟩ => ⟨_, hmem, rfl, hm, hc⟩
      · rintro ⟨tick, htick, he, hm, hc⟩
        obtain rfl := hself htick he
        exact ⟨hm, hc⟩
    · simp [hj]
  | running j =>
    simp only [At, ho.exists_set ⟨inc, slot, todo, none⟩ hn rfl, Place.running.injEq, reduceCtorEq, false_and, and_false,
      if_false, false_or, ne_eq]

theorem at_raises (ho : Orderly w) {current : Nat × Callback Number F Nat}
    (hn : w.ticks[n]? = some ⟨inc, slot, todo, some current⟩) :
    At { w with ticks := w.ticks.eraseIdx n } p i callback ↔
      p ≠ .todo inc ∧ p ≠ .running inc ∧ At w p i callback := by
  cases p <;> simp [At, ho.exists_eraseIdx hn]

/-- A tick that has come to its end has nothing left at any place. -/
theorem at_finish (ho : Orderly w) (hn : w.ticks[n]? = some ⟨inc, slot, [], none⟩) :
    At { w with timer := clearSlot w.timer, ticks := w.ticks.eraseIdx n } p i callback ↔
      At w p i callback := by
  have hself : ∀ {tick}, tick ∈ w.ticks → tick.inc = inc → tick = ⟨inc, slot, [], none⟩ :=
    fun hm he => ho.unique hm (List.mem_of_getElem? hn) he
  cases p with
  | later s =>
    have hkey : Numbers.key Number w.timer.inc = intKey w.timer.inc := rfl
    have hinc : (clearSlot w.timer).inc = w.timer.inc := rfl
    simp only [At, entry_clearSlot, hkey, hinc]
    constructor
    · rintro ⟨he, hs⟩
      exact ⟨by rwa [if_neg hs.ne'] at he, hs⟩
    · rintro ⟨he, hs⟩
      exact ⟨by rwa [if_neg hs.ne'], hs⟩
  | todo j =>
    simp only [At, ho.exists_eraseIdx hn, and_iff_right_iff_imp]
    rintro ⟨tick, htick, rfl, hm, -⟩ he
    obtain rfl := hself htick he
    cases hm
  | running j =>
    simp only [At, ho.exists_eraseIdx hn, and_iff_right_iff_imp]
    rintro ⟨tick, htick, rfl, hc⟩ he
    obtain rfl := hself htick he
    cases hc

end

/-- What is at a place after a callback has been called was at one before. -/
theorem At.of_invoke {n : Nat} {inc : Int64} {slot : Slot Number F Nat} {idx : Nat}
    {todo : List Nat} {callback' : Callback Number F Nat} {log : List (Event Number Int64)}
    (ho : Orderly w) (hn : w.ticks[n]? = some ⟨inc, slot, idx :: todo, none⟩)
    (hidx : slot idx = some callback')
    (hat : At { w with
      ticks := w.ticks.set n ⟨inc, slot, todo, some (idx, callback')⟩, log := log } p i callback) :
    ∃ p', At w p' i callback ∧ ∀ inc', p = .todo inc' → p' = p := by
  rcases (at_invoke ho hn hidx).mp hat with ⟨rfl, rfl, rfl⟩ | ⟨-, hat⟩
  · exact ⟨.todo inc, ⟨_, List.mem_of_getElem? hn, rfl, List.mem_cons_self, hidx⟩, fun _ => nofun⟩
  · exact ⟨p, hat, fun _ _ => rfl⟩

/-- And after one has returned, but for its `start_time`. -/
theorem At.of_returns {n : Nat} {inc : Int64} {slot : Slot Number F Nat} {idx : Nat}
    {todo : List Nat} {callback' : Callback Number F Nat} {now : Int} (ho : Orderly w)
    (hn : w.ticks[n]? = some ⟨inc, slot, todo, some (idx, callback')⟩)
    (hat : At { w with
      timer := reschedule w.timer idx callback' now, ticks := w.ticks.set n ⟨inc, slot, todo, none⟩ }
      p i callback) :
    ∃ p' start_time, At w p' i { callback with start_time } ∧ ∀ inc', p = .todo inc' → p' = p := by
  rw [at_returns ho hn] at hat
  split at hat
  · rename_i hnew
    obtain ⟨-, rfl, rfl⟩ := hnew
    obtain ⟨rfl, -⟩ := hat
    exact ⟨.running inc, callback'.start_time, ⟨_, List.mem_of_getElem? hn, rfl, rfl⟩,
      fun _ => nofun⟩
  · exact ⟨p, callback.start_time, hat.2, fun _ _ => rfl⟩

/-- What is at a place after a step was at one before, or has been registered in it. -/
theorem Does.at_old (ho : Orderly w) (hdoes : Does w op w') (hl : w.Legal op) (hb : w.Below op)
    (hat : At w' p i callback) :
    (∃ p' start_time, At w p' i { callback with start_time }) ∨
      i = nextIdx w.timer.timer_idx ∧ ∃ sec f loop now, op = .register sec f loop now ∧
        callback = ⟨f, w.tags, sec, loop, now⟩ ∧
          w'.log = w.log ++ [.registered w.tags i w.timer.inc sec loop] := by
  cases hdoes with
  | nothing => exact .inl ⟨p, _, hat⟩
  | register hsec ht =>
    rw [at_register hsec ht] at hat
    split at hat
    · rename_i hnew
      exact .inr ⟨hnew.2, _, _, _, _, rfl, hat.1, by rw [hnew.2]⟩
    · exact .inl ⟨p, _, hat⟩
  | unregister idx => exact .inl ⟨p, _, at_unregister.mp hat⟩
  | idle hslot => exact .inl ⟨p, _, ((at_idle hb).mp hat).1⟩
  | start hslot =>
    rcases (at_start hb hl hslot).mp hat with hat | hat
    · exact .inl ⟨p, _, hat.1⟩
    · exact .inl ⟨_, _, hat.2.1⟩
  | invoke hn hidx =>
    obtain ⟨p', hat, -⟩ := hat.of_invoke ho hn hidx
    exact .inl ⟨p', _, hat⟩
  | returns now hn =>
    obtain ⟨p', start_time, hat, -⟩ := hat.of_returns ho hn
    exact .inl ⟨p', start_time, hat⟩
  | raises hn => exact .inl ⟨p, _, ((at_raises ho hn).mp hat).2.2⟩
  | finish hn => exact .inl ⟨p, _, (at_finish ho hn).mp hat⟩

/-! ## One place at most -/

/-- The counter has not come to its end yet, or the `idx` that it has come to is not in `timer_idxs`
for a tick to come, nor in a tick under way. -/
def World.Spare (w : World Number Int64 NumKey F) : Op Number F → Prop
  | .register _ _ _ _ => w.tags < 2147483646 ∨
    (∀ s ∈ w.timer.timer_idxs (nextIdx w.timer.timer_idx), s ≤ intKey w.timer.inc) ∧
      ∀ tick ∈ w.ticks, nextIdx w.timer.timer_idx ∉ tick.todo ∧
        ∀ current ∈ tick.current, current.1 ≠ nextIdx w.timer.timer_idx
  | _ => True

/-- Nothing is put under the key of the slot that a tick goes through. -/
def World.Apart (w : World Number Int64 NumKey F) : Op Number F → Prop
  | .register sec _ _ _ => ∀ tick ∈ w.ticks, (sec.add w.timer.inc).key ≠ intKey tick.inc
  | .returns n _ => ∀ current ∈ w.ticks[n]?.bind Tick.current, current.2.loop = true →
      ∀ tick ∈ w.ticks, (current.2.sec.add w.timer.inc).key ≠ intKey tick.inc
  | _ => True

instance (w : World Number Int64 NumKey F) : ∀ op, Decidable (w.Below op)
  | .start _ => inferInstanceAs (Decidable (_ < _))
  | .register .. | .unregister _ | .invoke _ | .returns .. | .raises _ | .finish _ =>
    .isTrue trivial

instance (w : World Number Int64 NumKey F) : ∀ op, Decidable (w.Spare op)
  | .register .. =>
    inferInstanceAs (Decidable (_ ∨ (∀ s ∈ _, _ ≤ _) ∧ ∀ tick ∈ _, _ ∧ ∀ current ∈ _, _ ≠ _))
  | .start _ | .unregister _ | .invoke _ | .returns .. | .raises _ | .finish _ => .isTrue trivial

instance (w : World Number Int64 NumKey F) : ∀ op, Decidable (w.Apart op)
  | .register .. => inferInstanceAs (Decidable (∀ tick ∈ _, _ ≠ _))
  | .returns .. => inferInstanceAs (Decidable (∀ current ∈ _, _ → ∀ tick ∈ _, _ ≠ _))
  | .start _ | .unregister _ | .invoke _ | .raises _ | .finish _ => .isTrue trivial

/-- What happens in a run whose `inc` goes up and whose `idx`s are spare. -/
def World.Regular (w : World Number Int64 NumKey F) (op : Op Number F) : Prop :=
  w.Legal op ∧ w.Below op ∧ w.Spare op

/-- `timer_idxs` knows where the callbacks are. -/
structure Placed (w : World Number Int64 NumKey F) : Prop where
  orderly : Orderly w
  numbered : w.tags ≤ 2147483646 → Numbered w
  known : ∀ p i callback, At w p i callback → w.timer.timer_idxs i = some p.key

theorem At.le (ho : Orderly w) (h : At w p i callback) (hp : ∀ s, p ≠ .later s) :
    p.key ≤ intKey w.timer.inc := by
  cases p with
  | later s => exact absurd rfl (hp s)
  | todo inc =>
    obtain ⟨tick, hm, rfl, -⟩ := h
    exact Lua.intKey_le.mpr (ho.le tick hm)
  | running inc =>
    obtain ⟨tick, hm, rfl, -⟩ := h
    exact Lua.intKey_le.mpr (ho.le tick hm)

/-- An `idx` is at one place at most. -/
theorem Placed.unique (h : Placed w) {p' : Place} {callback' : Callback Number F Nat}
    (h₁ : At w p i callback) (h₂ : At w p' i callback') : p = p' ∧ callback = callback' := by
  have hkey : p.key = p'.key :=
    Option.some.inj ((h.known _ _ _ h₁).symm.trans (h.known _ _ _ h₂))
  have hlater : ∀ {s p callback callback'}, At w (.later s) i callback → At w p i callback' →
      p.key = s → p = .later s := by
    intro s p callback callback' h₁ h₂ hs
    by_contra hne
    refine absurd (hs ▸ h₂.le h.orderly fun s' e => ?_) (not_le_of_gt h₁.2)
    rw [e] at hs hne
    exact hne (congrArg Place.later hs)
  have htick : ∀ {inc inc' : Int64}, intKey inc = intKey inc' → inc = inc' := Lua.intKey_inj.mp
  cases p with
  | later s =>
    obtain rfl := hlater h₁ h₂ hkey.symm
    exact ⟨rfl, Option.some.inj (h₁.1.symm.trans h₂.1)⟩
  | todo inc =>
    cases p' with
    | later s => cases hlater h₂ h₁ hkey
    | todo inc' =>
      obtain ⟨tick, hm, rfl, -, hc⟩ := h₁
      obtain ⟨tick', hm', he, -, hc'⟩ := h₂
      obtain rfl := h.orderly.unique hm hm' ((htick hkey).trans he.symm)
      exact ⟨congrArg Place.todo he, Option.some.inj (hc.symm.trans hc')⟩
    | running inc' =>
      obtain ⟨tick, hm, rfl, hi, -⟩ := h₁
      obtain ⟨tick', hm', he, hc'⟩ := h₂
      obtain rfl := h.orderly.unique hm hm' ((htick hkey).trans he.symm)
      exact absurd hi ((h.orderly.ticks _ hm).current _ _ hc')
  | running inc =>
    cases p' with
    | later s => cases hlater h₂ h₁ hkey
    | todo inc' =>
      obtain ⟨tick, hm, rfl, hc⟩ := h₁
      obtain ⟨tick', hm', he, hi, -⟩ := h₂
      obtain rfl := h.orderly.unique hm hm' ((htick hkey).trans he.symm)
      exact absurd hi ((h.orderly.ticks _ hm).current _ _ hc)
    | running inc' =>
      obtain ⟨tick, hm, rfl, hc⟩ := h₁
      obtain ⟨tick', hm', he, hc'⟩ := h₂
      obtain rfl := h.orderly.unique hm hm' ((htick hkey).trans he.symm)
      exact ⟨congrArg Place.running he, (Prod.mk.inj (Option.some.inj (hc.symm.trans hc'))).2⟩

/-- A spare `idx` is at no place, wrapped or not. -/
theorem Placed.not_at_next (h : Placed w) {sec : Number} {f : F} {loop : Bool} {now : Int}
    (hs : w.Spare (.register sec f loop now)) :
    ¬ At w p (nextIdx w.timer.timer_idx) callback := by
  intro hat
  have hknown := h.known _ _ _ hat
  rcases hs with hlt | ⟨hidxs, hticks⟩
  · have hn := h.numbered hlt.le
    have hle := hn.known (nextIdx w.timer.timer_idx) (by rw [hknown]; simp)
    rw [hn.nextIdx hlt] at hle
    omega
  · cases p with
    | later s => exact absurd (hidxs s hknown) (not_le_of_gt hat.2)
    | todo inc =>
      obtain ⟨tick, hm, -, hi, -⟩ := hat
      exact (hticks tick hm).1 hi
    | running inc =>
      obtain ⟨tick, hm, -, hc⟩ := hat
      exact (hticks tick hm).2 _ hc rfl

/-- A tick that starts forgets only what it drops. -/
theorem Placed.due_timer_idxs (h : Placed w) (hb : w.timer.inc < Int64.maxValue)
    (hat : At w p i callback)
    (hp : p = .later (intKey (w.timer.inc + 1)) → i ∉ w.timer.unregister_idx) :
    (due w.timer).timer_idxs i = w.timer.timer_idxs i := by
  rw [Timer.due_timer_idxs, if_neg]
  rintro ⟨hq, hs⟩
  obtain ⟨callback', hc⟩ := Option.isSome_iff_exists.mp hs
  have hdue : At w (.later (intKey (w.timer.inc + 1))) i callback' :=
    ⟨hc, Lua.intKey_lt.mpr (lt_succ hb)⟩
  exact hp (h.unique hat hdue).1 hq

/-- And what is queued for a later tick stays so. -/
theorem Placed.due_queue (h : Placed w) (hb : w.timer.inc < Int64.maxValue)
    (hat : At w p i callback) (hp : ∀ s, p = .later s → intKey (w.timer.inc + 1) < s)
    (hq : i ∈ w.timer.unregister_idx) : i ∈ (due w.timer).unregister_idx := by
  refine (Timer.due_queue w.timer i).2 hq ?_
  by_contra hne
  obtain ⟨callback', hc⟩ := Option.ne_none_iff_exists'.mp hne
  have hdue : At w (.later (intKey (w.timer.inc + 1))) i callback' :=
    ⟨hc, Lua.intKey_lt.mpr (lt_succ hb)⟩
  exact lt_irrefl _ (hp _ (h.unique hat hdue).1)

theorem placed_new (interval : Option Nat) : Placed (.new interval : World Number Int64 NumKey F) where
  orderly := orderly_new interval
  numbered _ := numbered_new interval
  known p i callback h := by cases p <;> simp [At, World.new, init, entry] at h

theorem Placed.does (h : Placed w) (hdoes : Does w op w') (hop : w.Regular op) : Placed w' := by
  obtain ⟨hl, hb, hs⟩ := hop
  refine ⟨h.orderly.does hdoes hl hb,
    fun hle => (h.numbered (hdoes.tags_le.trans hle)).does hdoes hle, fun p i callback hat => ?_⟩
  cases hdoes with
  | nothing => exact h.known _ _ _ hat
  | register hsec ht =>
    obtain ⟨t, e, -, -, -, hidxs, -⟩ := register_of_pos w.timer hsec w.tags _ _ _
    obtain ⟨rfl, -⟩ := Prod.mk.inj (Option.some.inj (e.symm.trans ht))
    rw [at_register hsec ht] at hat
    simp only [hidxs]
    split at hat
    · rename_i hnew
      rw [hnew.2, Function.update_self, hnew.1]
      rfl
    · have hne : i ≠ nextIdx w.timer.timer_idx := fun e => h.not_at_next hs (e ▸ hat)
      rw [Function.update_of_ne hne]
      exact h.known _ _ _ hat
  | unregister idx =>
    simp only [unregister_timer_idxs]
    exact h.known _ _ _ (at_unregister.mp hat)
  | idle hslot =>
    obtain ⟨hat, hp⟩ := (at_idle hb).mp hat
    simp only [h.due_timer_idxs hb hat fun e => absurd (hp _ e) (lt_irrefl _)]
    exact h.known _ _ _ hat
  | start hslot =>
    rcases (at_start hb hl hslot).mp hat with ⟨hat, hp⟩ | ⟨rfl, hat, hq⟩
    · simp only [h.due_timer_idxs hb hat fun e => absurd (hp _ e) (lt_irrefl _)]
      exact h.known _ _ _ hat
    · simp only [h.due_timer_idxs hb hat fun _ => hq]
      exact h.known (.later _) _ _ hat
  | invoke hn hidx =>
    rcases (at_invoke h.orderly hn hidx).mp hat with ⟨rfl, rfl, rfl⟩ | ⟨-, hat⟩
    · exact h.known (.todo _) _ _ ⟨_, List.mem_of_getElem? hn, rfl, List.mem_cons_self, hidx⟩
    · exact h.known _ _ _ hat
  | @returns n inc slot todo idx callback' now hn =>
    rw [at_returns h.orderly hn] at hat
    have hrun : At w (.running inc) idx callback' := ⟨_, List.mem_of_getElem? hn, rfl, rfl⟩
    simp only [reschedule_timer_idxs]
    split at hat
    · rename_i hnew
      obtain ⟨hloop, rfl, rfl⟩ := hnew
      rw [Function.update_self, if_pos hloop]
      rfl
    · have hne : i ≠ idx := by
        rintro rfl
        exact hat.1 (h.unique hat.2 hrun).1
      rw [Function.update_of_ne hne]
      exact h.known _ _ _ hat.2
  | raises hn => exact h.known _ _ _ ((at_raises h.orderly hn).mp hat).2.2
  | finish hn => exact h.known _ _ _ ((at_finish h.orderly hn).mp hat)

end SkynetHotfix.Timer.Overlap
