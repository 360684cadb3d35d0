import SkynetHotfix.Lib.Machine
import SkynetHotfix.Timer.Basic
import SkynetHotfix.Timer.Log

/-!
# Ticks in small steps

A callback runs in the coroutine of its tick and may yield, and the next tick is armed first thing:
it can start while a callback of an earlier one has not returned. Here `on_time_out` goes on in small
steps, between which anything else can happen, so that the states are also those that a callback
sees while it runs. What a step can do is said once (`Does`).

A tick goes on with the table that it found in its slot. What is put under the key of that slot by
then, which only a delay that is lost in its sum with `inc` can be, is left out of the table.
-/

namespace SkynetHotfix.Timer.Overlap

open Function (update)
open Numbers (key Pos plus)

variable {N I K F P : Type}

/-- A tick under way: `self.inc` when it started, its local `callbacks`, the `idx`s that `pairs` has
still to meet, and the callback that has not returned. -/
structure Tick (N I F : Type) where
  inc : I
  slot : Slot N F Nat
  todo : List Nat
  current : Option (Nat × Callback N F Nat)

/-- A timer, the ticks under way, the number of its registrations, and what happened so far. -/
structure World (N I K F : Type) where
  timer : State N I K F Nat
  ticks : List (Tick N I F)
  tags : Nat
  log : List (Event N I)

/-- What happens to a timer: calls, by callbacks or others, and the steps of `on_time_out`. -/
inductive Op (N F : Type)
  | register (sec : N) (f : F) (loop : Bool) (now : Int)
  | unregister (idx : Option Nat)
  /-- `on_time_out` up to its second loop, which meets the slot in this order. -/
  | start (order : List Nat)
  /-- The next callback of a tick is called. -/
  | invoke (n : Nat)
  /-- It returns. -/
  | returns (n : Nat) (now : Int)
  /-- It raises, which ends the tick. -/
  | raises (n : Nat)
  /-- The second loop of a tick has come to its end. -/
  | finish (n : Nat)

section

variable [DecidableEq K] [Numbers N I K]

/-- `timer:new` -/
def World.new (interval : Option Nat) : World N I K F := ⟨init interval, [], 0, []⟩

/-- `timer:left_time(idx)`, at the time `now`. -/
def left_time (t : State N I K F P) (idx : Option Nat) (now : Int) : Except String (Option N) :=
  match idx.bind t.timer_idxs, idx with
  | some sec, some idx =>
    match (t.callbacks sec).map (· idx) with
    | some (some callback) => .ok (some (Numbers.left callback.start_time callback.sec now))
    | _ => .error "attempt to index a nil value"
  | _, _ => .ok none

def World.exec (w : World N I K F) : Op N F → World N I K F
  | .register sec f loop now =>
    match register w.timer sec w.tags f loop now with
    | none => w
    | some (t, idx) =>
      { w with
        timer := t, tags := w.tags + 1,
        log := w.log ++ [.registered w.tags idx w.timer.inc sec loop] }
  | .unregister none => w
  | .unregister (some idx) =>
    { w with timer := unregister w.timer (some idx), log := w.log ++ [.unregistered idx] }
  | .start order =>
    let t := due w.timer
    match t.callbacks (key N t.inc) with
    | none => { w with timer := t }
    | some slot => { w with timer := t, ticks := w.ticks ++ [⟨t.inc, slot, order, none⟩] }
  | .invoke n =>
    match w.ticks[n]? with
    | some ⟨inc, slot, idx :: todo, none⟩ =>
      match slot idx with
      | some callback =>
        { w with
          ticks := w.ticks.set n ⟨inc, slot, todo, some (idx, callback)⟩,
          log := w.log ++ [.invoked callback.param idx w.timer.inc] }
      | none => w
    | _ => w
  | .returns n now =>
    match w.ticks[n]? with
    | some ⟨inc, slot, todo, some (idx, callback)⟩ =>
      { w with
        timer := reschedule w.timer idx callback now,
        ticks := w.ticks.set n ⟨inc, slot, todo, none⟩ }
    | _ => w
  | .raises n =>
    match w.ticks[n]? with
    | some ⟨_, _, _, some _⟩ => { w with ticks := w.ticks.eraseIdx n }
    | _ => w
  | .finish n =>
    match w.ticks[n]? with
    | some ⟨_, _, [], none⟩ => { w with timer := clearSlot w.timer, ticks := w.ticks.eraseIdx n }
    | _ => w

/-- `pairs` meets all of the slot, each `idx` once. -/
def World.Legal (w : World N I K F) : Op N F → Prop
  | .start order => order.Nodup ∧
      ∀ idx, idx ∈ order ↔ (entry (due w.timer) (key N (due w.timer).inc) idx).isSome
  | _ => True

/-! ## What a step does -/

/-- From `w` a step leads to `w'`: one constructor for each thing that it can do. -/
inductive Does (w : World N I K F) : Op N F → World N I K F → Prop
  | nothing (op : Op N F) : Does w op w
  | register {sec : N} {f : F} {loop : Bool} {now : Int} {t : State N I K F Nat} (hsec : Pos sec)
      (ht : register w.timer sec w.tags f loop now = some (t, nextIdx w.timer.timer_idx)) :
      Does w (.register sec f loop now)
        { w with
          timer := t, tags := w.tags + 1,
          log := w.log ++
            [.registered w.tags (nextIdx w.timer.timer_idx) w.timer.inc sec loop] }
  | unregister (idx : Nat) :
      Does w (.unregister (some idx))
        { w with timer := unregister w.timer (some idx), log := w.log ++ [.unregistered idx] }
  | idle {order : List Nat} (hslot : (due w.timer).callbacks (key N (due w.timer).inc) = none) :
      Does w (.start order) { w with timer := due w.timer }
  | start {order : List Nat} {slot : Slot N F Nat}
      (hslot : (due w.timer).callbacks (key N (due w.timer).inc) = some slot) :
      Does w (.start order)
        { w with
          timer := due w.timer,
          ticks := w.ticks ++ [⟨(due w.timer).inc, slot, order, none⟩] }
  | invoke {n : Nat} {inc : I} {slot : Slot N F Nat} {idx : Nat} {todo : List Nat}
      {callback : Callback N F Nat} (hn : w.ticks[n]? = some ⟨inc, slot, idx :: todo, none⟩)
      (hidx : slot idx = some callback) :
      Does w (.invoke n)
        { w with
          ticks := w.ticks.set n ⟨inc, slot, todo, some (idx, callback)⟩,
          log := w.log ++ [.invoked callback.param idx w.timer.inc] }
  | returns {n : Nat} {inc : I} {slot : Slot N F Nat} {todo : List Nat} {idx : Nat}
      {callback : Callback N F Nat} (now : Int)
      (hn : w.ticks[n]? = some ⟨inc, slot, todo, some (idx, callback)⟩) :
      Does w (.returns n now)
        { w with
          timer := reschedule w.timer idx callback now,
          ticks := w.ticks.set n ⟨inc, slot, todo, none⟩ }
  | raises {n : Nat} {inc : I} {slot : Slot N F Nat} {todo : List Nat}
      {current : Nat × Callback N F Nat}
      (hn : w.ticks[n]? = some ⟨inc, slot, todo, some current⟩) :
      Does w (.raises n) { w with ticks := w.ticks.eraseIdx n }
  | finish {n : Nat} {inc : I} {slot : Slot N F Nat}
      (hn : w.ticks[n]? = some ⟨inc, slot, [], none⟩) :
      Does w (.finish n)
        { w with timer := clearSlot w.timer, ticks := w.ticks.eraseIdx n }

variable {w w' : World N I K F} {op : Op N F} {i : Nat}

theorem does_exec (w : World N I K F) (op : Op N F) : Does w op (w.exec op) := by
  cases op with
  | register sec f loop now =>
    by_cases hsec : Pos sec
    · obtain ⟨t, ht, -⟩ := register_of_pos w.timer hsec w.tags f loop now
      simp only [World.exec, ht]
      exact .register hsec ht
    · simp only [World.exec, register_of_nonpos w.timer hsec]
      exact .nothing _
  | unregister idx =>
    cases idx with
    | none => exact .nothing _
    | some idx => exact .unregister idx
  | start order =>
    rw [World.exec]
    split
    · exact .idle ‹_›
    · exact .start ‹_›
  | invoke n =>
    rw [World.exec]
    split
    · rename_i hn
      split
      · exact .invoke hn ‹_›
      · exact .nothing _
    · exact .nothing _
  | returns n now =>
    rw [World.exec]
    split
    · exact .returns now ‹_›
    · exact .nothing _
  | raises n =>
    rw [World.exec]
    split
    · exact .raises ‹_›
    · exact .nothing _
  | finish n =>
    rw [World.exec]
    split
    · exact .finish ‹_›
    · exact .nothing _

/-- A step adds one event to the log at most, and `register` alone adds a registration. -/
theorem Does.log (hdoes : Does w op w') :
    w'.log = w.log ∨ ∃ e, w'.log = w.log ++ [e] ∧ ∀ tag idx inc sec loop,
      e = .registered tag idx inc sec loop →
        tag = w.tags ∧ idx = nextIdx w.timer.timer_idx ∧ inc = w.timer.inc ∧
          ∃ f now, op = .register sec f loop now ∧ Pos sec := by
  cases hdoes with
  | register hsec ht =>
    refine .inr ⟨_, rfl, ?_⟩
    rintro _ _ _ _ _ ⟨⟩
    exact ⟨rfl, rfl, rfl, _, _, rfl, hsec⟩
  | unregister idx => exact .inr ⟨_, rfl, fun _ _ _ _ _ => nofun⟩
  | invoke hn hidx => exact .inr ⟨_, rfl, fun _ _ _ _ _ => nofun⟩
  | _ => exact .inl rfl

/-- What is queued after a step was queued before, or is what it asks to unregister. -/
theorem Does.queue (hdoes : Does w op w') (hm : i ∈ w'.timer.unregister_idx) :
    i ∈ w.timer.unregister_idx ∨ w'.log = w.log ++ [.unregistered i] := by
  cases hdoes with
  | register hsec ht =>
    obtain ⟨t, e, -, -, hq, -⟩ := register_of_pos w.timer hsec w.tags _ _ _
    obtain ⟨rfl, -⟩ := Prod.mk.inj (Option.some.inj (e.symm.trans ht))
    exact .inl (hq ▸ hm)
  | unregister idx =>
    rcases mem_unregister.mp hm with hm | ⟨rfl, -⟩
    · exact .inl hm
    · exact .inr rfl
  | idle hslot => exact .inl ((due_queue ..).1 hm)
  | start hslot => exact .inl ((due_queue ..).1 hm)
  | returns now hn => exact .inl (by simpa using hm)
  | _ => exact .inl hm

/-- What every step keeps, seen from what it does, every run keeps. -/
theorem invariant_of_does {ok : World N I K F → Op N F → Prop} (Inv : World N I K F → Prop)
    {w₀ : World N I K F} (hw : Machine.Reach World.exec ok w₀ w) (h₀ : Inv w₀)
    (hdoes : ∀ w op w', Inv w → ok w op → Does w op w' → Inv w') : Inv w :=
  hw.invariant h₀ fun w op hw hok => hdoes w op _ hw hok (does_exec w op)

end

end SkynetHotfix.Timer.Overlap
