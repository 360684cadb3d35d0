import SkynetHotfix.Timer.Places

/-!
# Timers: how an `idx` is used again

Past 2147483646 registrations `register` hands out the `idx`s from 1 on again, without a look at the
timers that still have them (`wrap_reuses`). In runs that do not get there, and beyond as long as the
`idx`s that come up are spare and `Vacant`, no `idx` is handed out while a timer holds it, and what a
tick drops had been unregistered under the `idx` as it was issued for it (`idx_not_reused`).

The invariant (`Issued`): what is at a place was the last to be issued its `idx`, and is in the queue
only by request.
-/

namespace SkynetHotfix.Timer.Overlap

open Lua (Number NumKey intKey)

variable {F : Type} {w w' : World Number Int64 NumKey F} {op : Op Number F}

/-- A timer holds the `idx`: it is in the slot of a later tick, or a tick under way has still to call
it or to return from it. -/
def Held (w : World Number Int64 NumKey F) (idx : Nat) : Prop := ∃ p callback, At w p idx callback

/-- The `idx` that `register` hands out is held by no timer. -/
def World.Unheld (w : World Number Int64 NumKey F) : Op Number F → Prop
  | .register sec _ _ _ => sec.Pos → ¬ Held w (nextIdx w.timer.timer_idx)
  | _ => True

/-- The counter has not come to its end yet, or it has come to an `idx` that is not queued. -/
def World.Vacant (w : World Number Int64 NumKey F) : Op Number F → Prop
  | .register _ _ _ _ =>
    w.tags < 2147483646 ∨ nextIdx w.timer.timer_idx ∉ w.timer.unregister_idx
  | _ => True

instance (w : World Number Int64 NumKey F) : ∀ op, Decidable (w.Vacant op)
  | .register .. => inferInstanceAs (Decidable (_ ∨ _ ∉ _))
  | .start _ | .unregister _ | .invoke _ | .returns .. | .raises _ | .finish _ => .isTrue trivial

structure Issued (w : World Number Int64 NumKey F) : Prop where
  placed : Placed w
  latest : ∀ p i callback, At w p i callback → Latest callback.param i w.log
  queue : ∀ p i callback, At w p i callback → i ∈ w.timer.unregister_idx →
    Requested callback.param i w.log

theorem issued_new (interval : Option Nat) : Issued (.new interval : World Number Int64 NumKey F) := by
  have hnone : ∀ p i callback, ¬ At (.new interval : World Number Int64 NumKey F) p i callback := by
    intro p i callback h
    have hknown := (placed_new interval).known p i callback h
    cases hknown
  exact ⟨placed_new interval, fun _ _ _ h => absurd h (hnone _ _ _),
    fun _ _ _ h => absurd h (hnone _ _ _)⟩

/-- An `idx` that comes up is not queued, wrapped or not. -/
theorem Placed.not_queued (h : Placed w) {sec : Number} {f : F} {loop : Bool} {now : Int}
    (hv : w.Vacant (.register sec f loop now)) :
    nextIdx w.timer.timer_idx ∉ w.timer.unregister_idx := by
  rcases hv with hlt | hv
  · intro hm
    have hn := h.numbered hlt.le
    have hle := hn.queue _ hm
    rw [hn.nextIdx hlt] at hle
    omega
  · exact hv

theorem Issued.unheld (h : Issued w) (hs : w.Spare op) : w.Unheld op := by
  cases op with
  | register sec f loop now =>
    rintro - ⟨p, callback, hat⟩
    exact h.placed.not_at_next hs hat
  | _ => trivial

/-- What is dropped when a tick starts was to be called in it, and is queued. -/
theorem Issued.dropped (h : Issued w) (hb : w.timer.inc < Int64.maxValue) {idx : Nat}
    {callback : Callback Number F Nat}
    (hc : entry w.timer (intKey (w.timer.inc + 1)) idx = some callback)
    (hd : entry (due w.timer) (intKey (w.timer.inc + 1)) idx = none) :
    Requested callback.param idx w.log := by
  have hat : At w (.later (intKey (w.timer.inc + 1))) idx callback :=
    ⟨hc, Lua.intKey_lt.mpr (lt_succ hb)⟩
  rw [entry_due] at hd
  split at hd
  · rename_i hq
    exact h.queue _ _ _ hat hq.2
  · rw [hc] at hd
    cases hd

theorem Issued.does (h : Issued w) (hdoes : Does w op w') (hop : w.Regular op)
    (hv : w.Vacant op) : Issued w' := by
  have hp := h.placed.does hdoes hop
  obtain ⟨hl, hb, hs⟩ := hop
  have hrequested : ∀ {tag idx}, Requested tag idx w.log → Requested tag idx w'.log := by
    intro tag idx hr
    rcases hdoes.log with hlog | ⟨e, hlog, -⟩ <;> rw [hlog]
    · exact hr
    · exact hr.append _
  refine ⟨hp, fun p i callback hat => ?_, fun p i callback hat hm => ?_⟩
  · rcases hdoes.at_old h.placed.orderly hl hb hat with
      ⟨p', start_time, hat⟩ | ⟨rfl, sec, f, loop, now, -, rfl, hlog⟩
    · have hlatest := h.latest p' i { callback with start_time } hat
      rcases hdoes.log with hlog | ⟨e, hlog, hreg⟩ <;> rw [hlog]
      · exact hlatest
      · -- an `idx` that comes up is at no place
        refine hlatest.append fun tag inc sec loop he => ?_
        obtain ⟨-, rfl, -, f, now, rfl, -⟩ := hreg _ _ _ _ _ he
        exact h.placed.not_at_next hs hat
    · rw [hlog]
      exact latest_registered ..
  · rcases hdoes.at_old h.placed.orderly hl hb hat with
      ⟨p', start_time, hat⟩ | ⟨rfl, sec, f, loop, now, rfl, -, hlog⟩
    · rcases hdoes.queue hm with hm | hlog
      · exact hrequested (h.queue p' i { callback with start_time } hat hm)
      · rw [hlog]
        exact (h.latest p' i { callback with start_time } hat).requested
    · rcases hdoes.queue hm with hm | hlog'
      · exact absurd hm (h.placed.not_queued hv)
      · rw [hlog] at hlog'
        cases List.append_cancel_left hlog'

/-- In a run whose registrations find their `idx`s spare and vacant, whatever raises or yields, no
`idx` is handed out while a timer holds it, and a tick drops only timers whose `idx` was unregistered
as theirs. -/
theorem idx_not_reused {interval : Option Nat} {w : World Number Int64 NumKey F}
    (h : Machine.Reach World.exec (fun w op => w.Regular op ∧ w.Apart op ∧ w.Vacant op)
      (.new interval) w) :
    (∀ op, w.Regular op → w.Unheld op) ∧
    (w.timer.inc < Int64.maxValue → ∀ idx callback,
      entry w.timer (intKey (w.timer.inc + 1)) idx = some callback →
      entry (due w.timer) (intKey (w.timer.inc + 1)) idx = none →
      Requested callback.param idx w.log) := by
  have hissued : Issued w := invariant_of_does Issued h (issued_new interval)
    fun _ _ _ h hop hdoes => h.does hdoes hop.1 hop.2.2
  exact ⟨fun op hop => hissued.unheld hop.2.2, fun hb _ _ hc hd => hissued.dropped hb hc hd⟩

/-- A loop timer, unregistered before its first tick. -/
def dropping : List (Op Number Unit) := [.register (.int 1) () true 0, .unregister (some 1)]

theorem idx_not_reused_sample :
    Requested 0 1 [.registered 0 1 (0 : Int64) (Number.int 1) true, .unregistered 1] := by
  have h := reach_of_checked (K := NumKey) (fun w op => w.Below op ∧ w.Spare op ∧ w.Apart op ∧
    w.Vacant op) none dropping (by decide +kernel) (by decide +kernel)
  exact (idx_not_reused (h.mono fun w op hop => ⟨⟨hop.1, hop.2.1, hop.2.2.1⟩, hop.2.2.2⟩)).2
    (by decide +kernel) 1 ⟨(), 0, .int 1, true, 0⟩ (by decide +kernel) (by decide +kernel)

/-- Any number of registrations after that of a loop timer, up to the end of the counter. -/
theorem wrap_reach (n : Nat) (hn : n ≤ 2147483645) : ∃ w : World Number Int64 NumKey Unit,
    Machine.Reach World.exec World.Legal (.new none) w ∧ w.timer.timer_idx = n + 1 ∧
      w.timer.inc = 0 ∧ entry w.timer (intKey 1) 1 = some ⟨(), 0, .int 1, true, 0⟩ := by
  induction n with
  | zero =>
    refine ⟨_, .step (Op.register (.int 1) () true 0) .init trivial, ?_⟩
    decide +kernel
  | succ n ih =>
    obtain ⟨w, hw, hidx, hinc, he⟩ := ih (by omega)
    obtain ⟨t', e, hi, hc, -, -, he'⟩ :=
      register_of_pos w.timer (show (Number.int 1).Pos by decide) w.tags () false 0
    have hnext : nextIdx w.timer.timer_idx = n + 2 := by
      rw [hidx, nextIdx, if_neg (by omega)]
    refine ⟨w.exec (.register (.int 1) () false 0), .step _ hw trivial, ?_⟩
    simp only [World.exec, e]
    refine ⟨by rw [hc, hnext], by rw [hi, hinc], ?_⟩
    rw [he', hnext, if_neg (by omega), he]

/-- The counter starts again at 1, which the loop timer still holds. -/
theorem wrap_reuses :
    ¬ ∀ w : World Number Int64 NumKey Unit, Machine.Reach World.exec World.Legal (.new none) w →
      ∀ op, w.Legal op → w.Unheld op := by
  intro hall
  obtain ⟨w, hw, hidx, hinc, he⟩ := wrap_reach 2147483645 (by omega)
  refine hall w hw (.register (.int 1) () false 0) trivial (by decide) ?_
  have hnext : nextIdx w.timer.timer_idx = 1 := by
    rw [hidx, nextIdx, if_pos (by omega)]
  exact ⟨.later (intKey 1), _, hnext ▸ he, by rw [hinc]; exact Lua.intKey_lt.mpr (by decide)⟩

end SkynetHotfix.Timer.Overlap
