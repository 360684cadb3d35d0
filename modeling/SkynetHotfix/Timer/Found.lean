import SkynetHotfix.Timer.Numbered

/-!
# Timers: what `timer_idxs` says is there

In every state, also those that a callback sees while it runs, what `timer_idxs` says is `Found`, so
that `left_time` does not raise, as long as no tick that has come to its end clears the slot of a
later one: it clears `self.callbacks[self.inc]`, whatever `self.inc` is by then (`suspended_clears`,
`found_everywhere`). A tick that is alone clears its own slot, which nothing refers to any more.
-/

namespace SkynetHotfix.Timer.Overlap

open Function (update)
open Numbers (key Pos plus)

variable {N I K F P : Type}

/-- What `timer_idxs` says is there. -/
def Kept (t : State N I K F P) : Prop :=
  ∀ idx s, t.timer_idxs idx = some s → (entry t s idx).isSome

/-- It is, and `left_time` does not raise. -/
def Found [Numbers N I K] (t : State N I K F P) : Prop :=
  Kept t ∧ ∀ idx now, ∃ left, left_time t idx now = .ok left

/-- A tick that has come to its end clears a slot that `timer_idxs` does not refer to. -/
def World.Clears [Numbers N I K] (w : World N I K F) : Op N F → Prop
  | .finish n => ∀ inc slot, w.ticks[n]? = some ⟨inc, slot, [], none⟩ →
      ∀ idx, w.timer.timer_idxs idx ≠ some (key N w.timer.inc)
  | _ => True

/-- A tick starts when no other is under way. -/
def World.Alone (w : World N I K F) : Op N F → Prop
  | .start _ => w.ticks = []
  | _ => True

instance (w : World N I K F) : ∀ op, Decidable (w.Alone op)
  | .start _ => decidable_of_iff (w.ticks.isEmpty = true) List.isEmpty_iff
  | .register .. | .unregister _ | .invoke _ | .returns .. | .raises _ | .finish _ =>
    .isTrue trivial

variable {w w' : World N I K F} {op : Op N F} {t : State N I K F P} {idx i : Nat} {s : K}

/-! ## The pieces -/

theorem Kept.unregister (h : Kept t) (idx : Option Nat) : Kept (unregister t idx) := by
  intro i s hs
  rw [unregister_timer_idxs] at hs
  rw [entry_unregister]
  exact h i s hs

variable [Numbers N I K]

theorem Kept.found (h : Kept t) : Found t := by
  refine ⟨h, fun idx now => ?_⟩
  cases idx with
  | none => exact ⟨none, rfl⟩
  | some idx =>
    cases hs : t.timer_idxs idx with
    | none => exact ⟨none, by simp [left_time, hs]⟩
    | some sec =>
      obtain ⟨callback, hc⟩ := Option.isSome_iff_exists.mp (h idx sec hs)
      obtain ⟨slot, hslot, hidx⟩ := Option.bind_eq_some_iff.mp hc
      exact ⟨some (Numbers.left callback.start_time callback.sec now),
        by simp [left_time, hs, hslot, hidx]⟩

theorem kept_init (interval : Option Nat) : Kept (init interval : State N I K F P) := by
  intro idx s h
  cases h

section

variable [DecidableEq K]

theorem Kept.register (h : Kept t) {sec : N} {param : P} {f : F} {loop : Bool} {now : Int}
    {t' : State N I K F P} (hr : register t sec param f loop now = some (t', i)) : Kept t' := by
  by_cases hsec : Pos sec
  · obtain ⟨t'', h', -, -, -, hidxs, hentry⟩ := register_of_pos t hsec param f loop now
    obtain ⟨rfl, -⟩ := Prod.mk.inj (Option.some.inj (h'.symm.trans hr))
    intro idx s hs
    rw [hidxs] at hs
    rw [hentry]
    by_cases hidx : idx = nextIdx t.timer_idx
    · rw [hidx, Function.update_self] at hs
      rw [if_pos ⟨(Option.some.inj hs).symm, hidx⟩]
      rfl
    · rw [Function.update_of_ne hidx] at hs
      rw [if_neg fun hn => hidx hn.2]
      exact h idx s hs
  · rw [register_of_nonpos t hsec] at hr
    cases hr

theorem Kept.due (h : Kept t) : Kept (due t) := by
  intro idx s hs
  have hold := due_timer_idxs_subset hs
  rw [due_timer_idxs] at hs
  rw [entry_due]
  split
  · rename_i hdrop
    rw [if_pos ⟨hdrop.2, hdrop.1 ▸ h idx s hold⟩] at hs
    cases hs
  · exact h idx s hold

theorem Kept.reschedule (h : Kept t) (i : Nat) (callback : Callback N F P) (now : Int) :
    Kept (reschedule t i callback now) := by
  intro idx s hs
  rw [reschedule_timer_idxs] at hs
  rw [entry_reschedule]
  by_cases hidx : idx = i
  · rw [hidx, Function.update_self] at hs
    cases hloop : callback.loop with
    | false =>
      rw [hloop] at hs
      cases hs
    | true =>
      rw [hloop, if_pos rfl] at hs
      rw [if_pos ⟨rfl, (Option.some.inj hs).symm, hidx⟩]
      rfl
  · rw [Function.update_of_ne hidx] at hs
    rw [if_neg fun hn => hidx hn.2.2]
    exact h idx s hs

/-- A slot may be cleared just when `timer_idxs` does not refer to it. -/
theorem Kept.clearSlot_iff (h : Kept t) :
    Kept (clearSlot t) ↔ ∀ idx, t.timer_idxs idx ≠ some (key N t.inc) := by
  constructor
  · intro h' idx hs
    have hentry := h' idx (key N t.inc) hs
    rw [entry_clearSlot, if_pos rfl] at hentry
    cases hentry
  · intro hinc idx s hs
    rw [entry_clearSlot, if_neg]
    · exact h idx s hs
    · rintro rfl
      exact hinc idx hs

/-! ## Steps -/

theorem Does.kept (hdoes : Does w op w') (h : Kept w.timer) (hclears : w.Clears op) :
    Kept w'.timer := by
  cases hdoes with
  | nothing => exact h
  | register _ ht => exact h.register ht
  | unregister idx => exact h.unregister (some idx)
  | idle hslot => exact h.due
  | start hslot => exact h.due
  | invoke hn hidx => exact h
  | returns now hn => exact h.reschedule _ _ _
  | raises hn => exact h
  | finish hn => exact h.clearSlot_iff.mpr (hclears _ _ hn)

theorem kept_exec_iff (h : Kept w.timer) (op : Op N F) :
    Kept (w.exec op).timer ↔ w.Clears op := by
  refine ⟨fun hkept => ?_, (does_exec w op).kept h⟩
  cases op with
  | finish n =>
    intro inc slot hn
    simp only [World.exec, hn] at hkept
    exact h.clearSlot_iff.mp hkept
  | _ => trivial

end

/-! ## One tick at a time -/

/-- The delay is not lost in its sum with `inc`. -/
def Moves (sec : N) : Prop := ∀ inc : I, plus inc sec ≠ key N inc

/-- A tick under way: what `timer_idxs` refers to in its slot has still to be met, or is running. -/
structure Tick.Lone (tick : Tick N I F) (t : State N I K F Nat) : Prop where
  moves : ∀ idx callback, tick.slot idx = some callback ∨ tick.current = some (idx, callback) →
    Moves callback.sec
  left : ∀ idx, t.timer_idxs idx = some (key N t.inc) →
    idx ∈ tick.todo ∨ ∃ callback, tick.current = some (idx, callback)

/-- At most one tick is under way. -/
structure Lone (w : World N I K F) : Prop where
  kept : Kept w.timer
  moves : ∀ s idx callback, entry w.timer s idx = some callback → Moves callback.sec
  ticks : w.ticks = [] ∨ ∃ tick, w.ticks = [tick] ∧ tick.Lone w.timer

theorem lone_new (interval : Option Nat) : Lone (.new interval : World N I K F) where
  kept := kept_init interval
  moves s idx callback h := by cases h
  ticks := .inl rfl

/-- The tick that is under way, if there is one at a place. -/
theorem Lone.tick (h : Lone w) {n : Nat} {tick : Tick N I F} (hn : w.ticks[n]? = some tick) :
    n = 0 ∧ w.ticks = [tick] ∧ tick.Lone w.timer := by
  rcases h.ticks with h | ⟨tick', h, hlone⟩
  · rw [h] at hn
    cases hn
  · rw [h] at hn
    cases n with
    | zero =>
      obtain rfl := Option.some.inj hn
      exact ⟨rfl, h, hlone⟩
    | succ n => cases hn

/-- Its end meets the condition. -/
theorem Lone.clears (h : Lone w) (op : Op N F) : w.Clears op := by
  cases op with
  | finish n =>
    intro inc slot hn idx hidx
    obtain ⟨-, -, hlone⟩ := h.tick hn
    rcases hlone.left idx hidx with hmem | ⟨callback, hcur⟩
    · cases hmem
    · cases hcur
  | _ => trivial

theorem Lone.invoke (h : Lone w) {n : Nat} {inc : I} {slot : Slot N F Nat} {idx : Nat}
    {todo : List Nat} {callback : Callback N F Nat} {log : List (Event N I)}
    (hn : w.ticks[n]? = some ⟨inc, slot, idx :: todo, none⟩) (hidx : slot idx = some callback) :
    Lone { w with ticks := w.ticks.set n ⟨inc, slot, todo, some (idx, callback)⟩, log := log } := by
  obtain ⟨rfl, hticks, hlone⟩ := h.tick hn
  refine ⟨h.kept, h.moves, .inr ⟨_, by rw [hticks]; rfl, fun i c hc => ?_, fun i hi => ?_⟩⟩
  · rcases hc with hc | hc
    · exact hlone.moves i c (.inl hc)
    · obtain ⟨rfl, rfl⟩ := Prod.mk.inj (Option.some.inj hc)
      exact hlone.moves idx callback (.inl hidx)
  · rcases hlone.left i hi with hmem | ⟨c, hc⟩
    · rcases List.mem_cons.mp hmem with rfl | hmem
      · exact .inr ⟨callback, rfl⟩
      · exact .inl hmem
    · cases hc

variable [DecidableEq K]

/-- What is registered moves. -/
def Op.Moves : Op N F → Prop
  | .register sec _ _ _ => Pos sec → Overlap.Moves sec
  | _ => True

theorem Lone.registered (h : Lone w) {sec : N} {f : F} {loop : Bool} {now : Int}
    (hsec : Pos sec) (hmoves : Moves sec) {t : State N I K F Nat} {log : List (Event N I)}
    (ht : register w.timer sec w.tags f loop now = some (t, nextIdx w.timer.timer_idx)) :
    Lone { w with timer := t, tags := w.tags + 1, log := log } := by
  obtain ⟨t', hr, hinc, -, -, hidxs, hentry⟩ := register_of_pos w.timer hsec w.tags f loop now
  obtain ⟨rfl, -⟩ := Prod.mk.inj (Option.some.inj (hr.symm.trans ht))
  have hother : ∀ idx, t'.timer_idxs idx = some (key N t'.inc) →
      w.timer.timer_idxs idx = some (key N w.timer.inc) := by
    intro idx hidx
    rw [hidxs, hinc] at hidx
    by_cases hi : idx = nextIdx w.timer.timer_idx
    · rw [hi, Function.update_self] at hidx
      exact absurd (Option.some.inj hidx) (hmoves _)
    · rwa [Function.update_of_ne hi] at hidx
  refine ⟨h.kept.register hr, fun s idx callback hc => ?_, ?_⟩
  · rw [hentry] at hc
    split at hc
    · rw [← Option.some.inj hc]
      exact hmoves
    · exact h.moves s idx callback hc
  · rcases h.ticks with hnone | ⟨tick, htick, hlone⟩
    · exact .inl hnone
    · exact .inr ⟨tick, htick, hlone.moves, fun idx hidx => hlone.left idx (hother idx hidx)⟩

theorem Lone.start (h : Lone w) {order : List Nat} (hl : w.Legal (.start order))
    (ha : w.ticks = []) {slot : Slot N F Nat}
    (hslot : (due w.timer).callbacks (key N (due w.timer).inc) = some slot) :
    Lone { w with
      timer := due w.timer, ticks := w.ticks ++ [⟨(due w.timer).inc, slot, order, none⟩] } := by
  have hdue : ∀ s idx callback, entry (due w.timer) s idx = some callback → Moves callback.sec :=
    fun s idx callback hc => h.moves s idx callback (entry_due_subset hc)
  refine ⟨h.kept.due, hdue,
    .inr ⟨_, by rw [ha]; rfl, fun idx callback hc => ?_, fun idx hidx => ?_⟩⟩
  · rcases hc with hc | hc
    · exact hdue (key N (due w.timer).inc) idx callback (by rw [entry, hslot]; exact hc)
    · cases hc
  · exact .inl ((hl.2 idx).mpr (h.kept.due idx _ hidx))

theorem Lone.returns (h : Lone w) {n : Nat} {inc : I} {slot : Slot N F Nat} {todo : List Nat}
    {idx : Nat} {callback : Callback N F Nat} (now : Int)
    (hn : w.ticks[n]? = some ⟨inc, slot, todo, some (idx, callback)⟩) :
    Lone { w with
      timer := reschedule w.timer idx callback now,
      ticks := w.ticks.set n ⟨inc, slot, todo, none⟩ } := by
  obtain ⟨rfl, hticks, hlone⟩ := h.tick hn
  have hmoves : Moves callback.sec := hlone.moves idx callback (.inr rfl)
  refine ⟨h.kept.reschedule idx callback now, fun s i c hc => ?_,
    .inr ⟨_, by rw [hticks]; rfl, fun i c hc => ?_, fun i hi => ?_⟩⟩
  · rw [entry_reschedule] at hc
    split at hc
    · rw [← Option.some.inj hc]
      exact hmoves
    · exact h.moves s i c hc
  · rcases hc with hc | hc
    · exact hlone.moves i c (.inl hc)
    · cases hc
  · -- the one that has returned is not in the slot any more
    rw [reschedule_timer_idxs, reschedule_inc] at hi
    by_cases e : i = idx
    · rw [e, Function.update_self] at hi
      split at hi
      · exact absurd (Option.some.inj hi) (hmoves _)
      · cases hi
    · rw [Function.update_of_ne e] at hi
      rcases hlone.left i hi with hmem | ⟨c, hc⟩
      · exact .inl hmem
      · exact absurd (Prod.mk.inj (Option.some.inj hc)).1.symm e

theorem Lone.does (h : Lone w) (hdoes : Does w op w') (hl : w.Legal op) (ha : w.Alone op)
    (hmoves : op.Moves) : Lone w' := by
  cases hdoes with
  | nothing => exact h
  | register hsec ht => exact h.registered hsec (hmoves hsec) ht
  | unregister idx =>
    refine ⟨h.kept.unregister (some idx), fun s i callback hc => ?_, ?_⟩
    · exact h.moves s i callback (by rwa [entry_unregister] at hc)
    · rcases h.ticks with hnone | ⟨tick, htick, hlone⟩
      · exact .inl hnone
      · refine .inr ⟨tick, htick, hlone.moves, fun i hi => ?_⟩
        rw [unregister_timer_idxs, unregister_inc] at hi
        exact hlone.left i hi
  | idle hslot =>
    exact ⟨h.kept.due, fun s i callback hc => h.moves s i callback (entry_due_subset hc), .inl ha⟩
  | start hslot => exact h.start hl ha hslot
  | invoke hn hidx => exact h.invoke hn hidx
  | returns now hn => exact h.returns now hn
  | raises hn =>
    obtain ⟨rfl, hticks, -⟩ := h.tick hn
    exact ⟨h.kept, h.moves, .inl (by rw [hticks]; rfl)⟩
  | finish hn =>
    obtain ⟨rfl, hticks, -⟩ := h.tick hn
    have hkept := h.kept.clearSlot_iff.mpr (h.clears (.finish 0) _ _ hn)
    refine ⟨hkept, fun s i callback hc => ?_, .inl (by rw [hticks]; rfl)⟩
    rw [entry_clearSlot] at hc
    split at hc
    · cases hc
    · exact h.moves s i callback hc

/-! ## Runs -/

/-- The delays are integers. -/
def Op.Integral : Op Lua.Number F → Prop
  | .register (.int _) _ _ _ => True
  | .register _ _ _ _ => False
  | _ => True

instance : ∀ op : Op Lua.Number F, Decidable op.Integral
  | .register (.int _) .. | .start _ | .unregister _ | .invoke _ | .returns .. | .raises _
  | .finish _ => .isTrue trivial
  | .register (.float _) .. | .register .inf .. | .register .lost .. => .isFalse id

theorem Op.Integral.moves {op : Op Lua.Number F} (h : op.Integral) : op.Moves := by
  cases op with
  | register sec f loop now =>
    cases sec with
    | int n =>
      intro hpos inc he
      have hn : inc + n = inc := Lua.intKey_inj.mp he
      rw [Int64.add_eq_left] at hn
      rw [hn] at hpos
      exact absurd hpos (by decide)
    | _ => exact h.elim
  | _ => trivial

/-- In every run in which a tick that comes to its end clears a slot that `timer_idxs` does not refer
to, `left_time` never raises, and a step keeps that just when it meets the condition. Ticks of whole
delays that start one after the other always do. -/
theorem found_everywhere (interval : Option Nat) :
    (∀ w : World Lua.Number Int64 Lua.NumKey F,
      Machine.Reach World.exec (fun w op => w.Legal op ∧ w.Clears op) (.new interval) w →
        Found w.timer ∧ ∀ op, w.Legal op → (Found (w.exec op).timer ↔ w.Clears op)) ∧
    ∀ w : World Lua.Number Int64 Lua.NumKey F,
      Machine.Reach World.exec (fun w op => w.Legal op ∧ op.Integral ∧ w.Alone op)
        (.new interval) w →
        Found w.timer ∧ ∀ op, w.Clears op := by
  constructor
  · intro w hw
    have hkept : Kept w.timer := hw.invariant (kept_init interval) fun w op h hop =>
      (kept_exec_iff h op).mpr hop.2
    refine ⟨hkept.found, fun op _ => ?_⟩
    rw [← kept_exec_iff hkept op]
    exact ⟨fun h => h.1, Kept.found⟩
  · intro w hw
    have hlone : Lone w := invariant_of_does Lone hw (lone_new interval) fun w op w' h hop hdoes =>
      h.does hdoes hop.1 hop.2.2 hop.2.1.moves
    exact ⟨hlone.kept.found, hlone.clears⟩

/-- A timer of one tick, whose callback runs. -/
def running : List (Op Lua.Number Unit) := [.register (.int 1) () false 0, .start [1], .invoke 0]

/-- It registers a second one, which the next tick calls, and then the first one returns. -/
def overlapping : List (Op Lua.Number Unit) :=
  running ++ [.register (.int 1) () false 0, .start [2], .invoke 1, .returns 0 0, .finish 0]

theorem found_everywhere_running :
    Found (running.foldl World.exec (.new none : World Lua.Number Int64 Lua.NumKey Unit)).timer := by
  have h := reach_of_checked (K := Lua.NumKey) (fun w op => op.Integral ∧ w.Alone op) none running
    (by decide +kernel) (by decide +kernel)
  exact ((found_everywhere none).2 _ h).1

/-- The first tick clears the slot of the second one, whose callback has not returned. -/
theorem suspended_clears : ¬ ∀ w : World Lua.Number Int64 Lua.NumKey Unit,
    Machine.Reach World.exec World.Legal (.new none) w → Found w.timer := by
  intro h
  have hcleared := reach_of_checked (K := Lua.NumKey) (fun _ _ => True) none overlapping
    (by decide +kernel) (by decide +kernel)
  obtain ⟨left, hleft⟩ := (h _ (hcleared.mono fun _ _ => And.left)).2 (some 2) 0
  have hraises : left_time (overlapping.foldl World.exec
      (.new none : World Lua.Number Int64 Lua.NumKey Unit)).timer (some 2) 0 =
      .error "attempt to index a nil value" := by decide +kernel
  rw [hraises] at hleft
  cases hleft

end SkynetHotfix.Timer.Overlap
