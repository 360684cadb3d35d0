import Mathlib.Logic.Function.Basic
import SkynetHotfix.Lua.Number

/-!
# The timer object

`common/base/timer.lua`. A timer counts its ticks in `inc`; a callback
registered for `sec` ticks from now sits in the slot `callbacks[inc + sec]`
under its `idx`, and `timer_idxs[idx]` is the key of that slot. `unregister`
only queues `idx`; the tick that finds it in its own slot drops it (`purge`).

A Lua table is a function from keys to `Option`, `nil` being `none`. What the
delays, `inc` and the keys are is left open (`Numbers`): `Lua.Number`s, 64-bit
integers and what a table takes for the same key, or exact rationals.
`on_time_out` runs code of the caller in the middle of its loop, so it is in
`Timer.Overlap`, in small steps, and in `Timer.Run`, a tick at a time, made of
the pieces below.
-/

namespace SkynetHotfix.Timer

open Function (update)

/-- The numbers that a timer counts with: delays, `inc` and keys. -/
class Numbers (N : Type) (I K : outParam Type) where
  zero : I
  /-- `self.inc + 1` -/
  succ : I → I
  /-- `self.inc` as the key of a slot -/
  key : I → K
  /-- `sec > 0` -/
  Pos : N → Prop
  [decPos : DecidablePred Pos]
  /-- `self.inc + sec` as the key of a slot -/
  plus : I → N → K
  /-- `start_time + wait_time - now_time` -/
  left : Int → N → Int → N

instance (N : Type) {I K : Type} [Numbers N I K] : DecidablePred (Numbers.Pos (N := N)) :=
  Numbers.decPos

/-- Lua's numbers. -/
instance : Numbers Lua.Number Int64 Lua.NumKey where
  zero := 0
  succ inc := inc + 1
  key := Lua.intKey
  Pos := Lua.Number.Pos
  plus inc sec := (sec.add inc).key
  left start sec now := (sec.add (.ofInt start)).add (-.ofInt now)

/-- Numbers without end, whose sums are exact. -/
instance : Numbers ℚ Nat ℚ where
  zero := 0
  succ inc := inc + 1
  key inc := inc
  Pos sec := 0 < sec
  plus inc sec := inc + sec
  left start sec now := start + sec - now

variable {N I K F P : Type}

/-- `{f = f, param = param, sec = _sec, loop = loop, start_time = os.time()}` -/
structure Callback (N F P : Type) where
  f : F
  param : P
  sec : N
  loop : Bool
  start_time : Int
deriving DecidableEq

/-- `callbacks[sec]`, by `idx`. -/
abbrev Slot (N F P : Type) := Nat → Option (Callback N F P)

/-- The fields of the object. -/
structure State (N I K F P : Type) where
  inc : I
  interval : Nat
  timer_idx : Nat
  callbacks : K → Option (Slot N F P)
  timer_idxs : Nat → Option K
  unregister_idx : List Nat

open Numbers (key Pos plus succ)

section

variable [DecidableEq K] [Numbers N I K]

/-- `timer:init`; the interval defaults to 100. -/
def init (interval : Option Nat) : State N I K F P where
  inc := Numbers.zero N
  interval := interval.getD 100
  timer_idx := 0
  callbacks := fun _ => none
  timer_idxs := fun _ => none
  unregister_idx := []

/-- The counter of `register`: it starts again at 1 past 2147483646. -/
def nextIdx (timer_idx : Nat) : Nat :=
  if timer_idx + 1 > 2147483646 then 1 else timer_idx + 1

/-- `callbacks[sec][idx] = callback`, making the slot where there is none. -/
def place (callbacks : K → Option (Slot N F P)) (sec : K) (idx : Nat) (callback : Callback N F P) :
    K → Option (Slot N F P) :=
  update callbacks sec (some (update ((callbacks sec).getD fun _ => none) idx (some callback)))

/-- `timer:register`; `none` where its assertion on `sec` fails. -/
def register (t : State N I K F P) (sec : N) (param : P) (f : F) (loop : Bool) (now : Int) :
    Option (State N I K F P × Nat) :=
  if Pos sec then
    let idx := nextIdx t.timer_idx
    some ({ t with
      timer_idx := idx
      timer_idxs := update t.timer_idxs idx (some (plus t.inc sec))
      callbacks := place t.callbacks (plus t.inc sec) idx
        { f, param, sec, loop, start_time := now } }, idx)
  else none

/-- `timer:unregister` -/
def unregister (t : State N I K F P) (idx : Option Nat) : State N I K F P :=
  match idx with
  | none => t
  | some idx =>
    match t.timer_idxs idx with
    | none => t
    | some _ => { t with unregister_idx := t.unregister_idx ++ [idx] }

/-- The first loop of `on_time_out`, from the end of `unregister_idx` to its
start: what the slot still holds of it is dropped, the rest stays queued. -/
def purge (slot : Slot N F P) (timer_idxs : Nat → Option K) :
    List Nat → Slot N F P × (Nat → Option K) × List Nat
  | [] => (slot, timer_idxs, [])
  | idx :: rest =>
    let (slot, timer_idxs, rest) := purge slot timer_idxs rest
    if (slot idx).isSome then (update slot idx none, update timer_idxs idx none, rest)
    else (slot, timer_idxs, idx :: rest)

/-- `self.inc = self.inc + 1` -/
def advance (t : State N I K F P) : State N I K F P := { t with inc := succ N t.inc }

/-- `purge` on the timer, for the slot of this tick. -/
def purgeSlot (t : State N I K F P) (slot : Slot N F P) : State N I K F P :=
  let (slot, timer_idxs, unregister_idx) := purge slot t.timer_idxs t.unregister_idx
  { t with callbacks := update t.callbacks (key N t.inc) (some slot), timer_idxs, unregister_idx }

/-- `on_time_out` up to its second loop: what it finds in its slot is due. -/
def due (t : State N I K F P) : State N I K F P :=
  match (advance t).callbacks (key N (advance t).inc) with
  | none => advance t
  | some slot => purgeSlot (advance t) slot

/-- The second loop of `on_time_out` after `callback.f` has returned. -/
def reschedule (t : State N I K F P) (idx : Nat) (callback : Callback N F P) (now : Int) : State N I K F P :=
  if callback.loop then
    { t with
      timer_idxs := update t.timer_idxs idx (some (plus t.inc callback.sec))
      callbacks := place t.callbacks (plus t.inc callback.sec) idx { callback with start_time := now } }
  else { t with timer_idxs := update t.timer_idxs idx none }

/-- `self.callbacks[self.inc] = nil` -/
def clearSlot (t : State N I K F P) : State N I K F P :=
  { t with callbacks := update t.callbacks (key N t.inc) none }

/-- `callbacks[sec][idx]`, `none` also where there is no such slot. -/
def entry (t : State N I K F P) (sec : K) (idx : Nat) : Option (Callback N F P) :=
  (t.callbacks sec).bind (· idx)

end

/-! ## What each piece does to an entry -/

@[simp] theorem unregister_inc (t : State N I K F P) (idx : Option Nat) :
    (unregister t idx).inc = t.inc := by
  unfold unregister; split <;> [rfl; split <;> rfl]

@[simp] theorem unregister_timer_idx (t : State N I K F P) (idx : Option Nat) :
    (unregister t idx).timer_idx = t.timer_idx := by
  unfold unregister; split <;> [rfl; split <;> rfl]

@[simp] theorem unregister_timer_idxs (t : State N I K F P) (idx : Option Nat) :
    (unregister t idx).timer_idxs = t.timer_idxs := by
  unfold unregister; split <;> [rfl; split <;> rfl]

@[simp] theorem unregister_callbacks (t : State N I K F P) (idx : Option Nat) :
    (unregister t idx).callbacks = t.callbacks := by
  unfold unregister; split <;> [rfl; split <;> rfl]

@[simp] theorem entry_unregister (t : State N I K F P) (idx : Option Nat) (s : K) (i : Nat) :
    entry (unregister t idx) s i = entry t s i := by
  unfold unregister; split <;> [rfl; split <;> rfl]

/-- `unregister` queues an `idx` that `timer_idxs` knows, and nothing else. -/
theorem mem_unregister {t : State N I K F P} {idx i : Nat} :
    i ∈ (unregister t (some idx)).unregister_idx ↔
      i ∈ t.unregister_idx ∨ (i = idx ∧ t.timer_idxs idx ≠ none) := by
  unfold unregister
  cases h : t.timer_idxs idx <;> simp [h]

theorem purge_slot (slot : Slot N F P) (timer_idxs : Nat → Option K) (l : List Nat) (i : Nat) :
    (purge slot timer_idxs l).1 i = if i ∈ l then none else slot i := by
  induction l with
  | nil => simp [purge]
  | cons idx rest ih =>
    simp only [purge]
    split <;> rename_i h
    · by_cases hi : i = idx
      · simp [hi]
      · simp [hi, ih]
    · by_cases hi : i = idx
      · simpa [hi] using h
      · simp [hi, ih]

theorem purge_timer_idxs (slot : Slot N F P) (timer_idxs : Nat → Option K) (l : List Nat) (i : Nat) :
    (purge slot timer_idxs l).2.1 i =
      if i ∈ l ∧ (slot i).isSome then none else timer_idxs i := by
  induction l with
  | nil => simp [purge]
  | cons idx rest ih =>
    have hs := purge_slot slot timer_idxs rest idx
    simp only [purge]
    split <;> rename_i h <;> rw [hs] at h
    · by_cases hi : i = idx
      · subst hi
        split at h <;> simp_all
      · simp [hi, ih]
    · by_cases hi : i = idx
      · subst hi
        split at h <;> simp_all
      · simp [hi, ih]

/-- Only what the slot does not hold is sure to stay queued. -/
theorem purge_queue (slot : Slot N F P) (timer_idxs : Nat → Option K) (l : List Nat) (i : Nat) :
    (i ∈ (purge slot timer_idxs l).2.2 → i ∈ l) ∧
      (i ∈ l → slot i = none → i ∈ (purge slot timer_idxs l).2.2) := by
  induction l with
  | nil => simp [purge]
  | cons idx rest ih =>
    have hs := purge_slot slot timer_idxs rest idx
    simp only [purge]
    split <;> rename_i h <;> rw [hs] at h
    · refine ⟨fun hi => List.mem_cons_of_mem _ (ih.1 hi), fun hi hn => ih.2 ?_ hn⟩
      rcases List.mem_cons.mp hi with rfl | hi
      · simp [hn] at h
      · exact hi
    · simp only [List.mem_cons]
      exact ⟨Or.imp_right ih.1, fun hi hn => hi.imp_right (ih.2 · hn)⟩

variable [DecidableEq K]

theorem entry_place {t t' : State N I K F P} {sec : K} {idx : Nat} {callback : Callback N F P}
    (h : t'.callbacks = place t.callbacks sec idx callback) (s : K) (i : Nat) :
    entry t' s i = if s = sec ∧ i = idx then some callback else entry t s i := by
  by_cases hs : s = sec
  · subst hs
    by_cases hi : i = idx
    · simp [entry, h, place, hi]
    · cases h' : t.callbacks s <;> simp [entry, h, place, hi, h']
  · simp [entry, h, place, hs]

variable [Numbers N I K]

/-- What `register` leaves, where its assertion holds. -/
theorem register_of_pos (t : State N I K F P) {sec : N} (h : Pos sec) (param : P) (f : F) (loop : Bool)
    (now : Int) :
    ∃ t', register t sec param f loop now = some (t', nextIdx t.timer_idx) ∧
      t'.inc = t.inc ∧ t'.timer_idx = nextIdx t.timer_idx ∧ t'.unregister_idx = t.unregister_idx ∧
      t'.timer_idxs = update t.timer_idxs (nextIdx t.timer_idx) (some (plus t.inc sec)) ∧
      ∀ s i, entry t' s i = if s = plus t.inc sec ∧ i = nextIdx t.timer_idx
        then some { f, param, sec, loop, start_time := now } else entry t s i := by
  refine ⟨{ t with
    timer_idx := nextIdx t.timer_idx
    timer_idxs := update t.timer_idxs (nextIdx t.timer_idx) (some (plus t.inc sec))
    callbacks := place t.callbacks (plus t.inc sec) (nextIdx t.timer_idx)
      { f, param, sec, loop, start_time := now } }, ?_, rfl, rfl, rfl, rfl, entry_place rfl⟩
  simp only [register, if_pos h]

theorem register_of_nonpos (t : State N I K F P) {sec : N} (h : ¬ Pos sec) (param : P) (f : F)
    (loop : Bool) (now : Int) : register t sec param f loop now = none := by
  rw [register, if_neg h]

@[simp] theorem due_inc (t : State N I K F P) : (due t).inc = succ N t.inc := by
  unfold due; split <;> rfl

@[simp] theorem due_timer_idx (t : State N I K F P) : (due t).timer_idx = t.timer_idx := by
  unfold due; split <;> rfl

/-- The tick's slot loses what is queued; no other slot changes. -/
theorem entry_due (t : State N I K F P) (s : K) (i : Nat) :
    entry (due t) s i =
      if s = key N (succ N t.inc) ∧ i ∈ t.unregister_idx then none else entry t s i := by
  unfold due
  cases h : (advance t).callbacks (key N (advance t).inc) with
  | none =>
    have hnone : t.callbacks (key N (succ N t.inc)) = none := h
    by_cases hs : s = key N (succ N t.inc)
    · simp [entry, advance, hnone, hs]
    · simp [entry, advance, hs]
  | some slot =>
    have hslot : t.callbacks (key N (succ N t.inc)) = some slot := h
    by_cases hs : s = key N (succ N t.inc)
    · subst hs
      simp [entry, purgeSlot, advance, purge_slot, hslot]
    · simp [entry, purgeSlot, advance, hs]

/-- What the tick drops, `timer_idxs` forgets. -/
theorem due_timer_idxs (t : State N I K F P) (i : Nat) :
    (due t).timer_idxs i =
      if i ∈ t.unregister_idx ∧ (entry t (key N (succ N t.inc)) i).isSome then none
      else t.timer_idxs i := by
  unfold due
  cases h : (advance t).callbacks (key N (advance t).inc) with
  | none =>
    have hnone : t.callbacks (key N (succ N t.inc)) = none := h
    simp [entry, advance, hnone]
  | some slot =>
    have hslot : t.callbacks (key N (succ N t.inc)) = some slot := h
    simp only [entry, hslot, Option.bind_some]
    exact purge_timer_idxs slot t.timer_idxs t.unregister_idx i

/-- Only what the tick's slot does not hold is sure to stay queued. -/
theorem due_queue (t : State N I K F P) (i : Nat) :
    (i ∈ (due t).unregister_idx → i ∈ t.unregister_idx) ∧
      (i ∈ t.unregister_idx → entry t (key N (succ N t.inc)) i = none →
        i ∈ (due t).unregister_idx) := by
  unfold due
  cases h : (advance t).callbacks (key N (advance t).inc) with
  | none => exact ⟨id, fun hm _ => hm⟩
  | some slot =>
    have hslot : t.callbacks (key N (succ N t.inc)) = some slot := h
    simp only [entry, hslot, Option.bind_some]
    exact purge_queue slot t.timer_idxs t.unregister_idx i

theorem entry_due_subset {t : State N I K F P} {s : K} {i : Nat} {callback : Callback N F P}
    (h : entry (due t) s i = some callback) : entry t s i = some callback := by
  rw [entry_due] at h
  split at h
  · cases h
  · exact h

theorem due_timer_idxs_subset {t : State N I K F P} {i : Nat} {s : K}
    (h : (due t).timer_idxs i = some s) : t.timer_idxs i = some s := by
  rw [due_timer_idxs] at h
  split at h
  · cases h
  · exact h

@[simp] theorem reschedule_inc (t : State N I K F P) (idx : Nat) (callback : Callback N F P) (now : Int) :
    (reschedule t idx callback now).inc = t.inc := by
  unfold reschedule; split <;> rfl

@[simp] theorem reschedule_timer_idx (t : State N I K F P) (idx : Nat) (callback : Callback N F P)
    (now : Int) : (reschedule t idx callback now).timer_idx = t.timer_idx := by
  unfold reschedule; split <;> rfl

@[simp] theorem reschedule_unregister_idx (t : State N I K F P) (idx : Nat) (callback : Callback N F P)
    (now : Int) : (reschedule t idx callback now).unregister_idx = t.unregister_idx := by
  unfold reschedule; split <;> rfl

theorem reschedule_timer_idxs (t : State N I K F P) (idx : Nat) (callback : Callback N F P) (now : Int) :
    (reschedule t idx callback now).timer_idxs =
      update t.timer_idxs idx (if callback.loop then some (plus t.inc callback.sec) else none) := by
  unfold reschedule; split <;> rfl

theorem entry_reschedule (t : State N I K F P) (idx : Nat) (callback : Callback N F P) (now : Int) (s : K)
    (i : Nat) :
    entry (reschedule t idx callback now) s i =
      if callback.loop ∧ s = plus t.inc callback.sec ∧ i = idx
      then some { callback with start_time := now } else entry t s i := by
  unfold reschedule
  split <;> rename_i h
  · simpa [h] using entry_place (t := t) rfl s i
  · simp [h, entry]

theorem entry_clearSlot (t : State N I K F P) (s : K) (i : Nat) :
    entry (clearSlot t) s i = if s = key N t.inc then none else entry t s i := by
  by_cases hs : s = key N t.inc
  · simp [entry, clearSlot, hs]
  · simp [entry, clearSlot, hs]

end SkynetHotfix.Timer
