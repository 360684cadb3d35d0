import SkynetHotfix.Lib.Machine
import SkynetHotfix.Timer.Basic
import SkynetHotfix.Timer.Log

/-!
# Runs of a timer, a tick at a time

What a service does with a timer object whose callbacks do not yield: calls of
`register` and `unregister` between ticks, and ticks (`on_time_out`), whose
callbacks make calls of their own and return or raise (`Visit`). The order in
which `pairs` meets the slot is whatever a tick's visits say, as long as they
meet it all, each `idx` once (`Traverses`). Numbers have no end here; the small
steps of such a run are in `Timer.Steps`.

A `World` is a timer with the log of its run.
-/

namespace SkynetHotfix.Timer

open Function (update)

variable {F : Type}

@[simp] theorem succ_nat (inc : Nat) : Numbers.succ ℚ inc = inc + 1 := rfl

@[simp] theorem plus_rat (inc : Nat) (sec : ℚ) : Numbers.plus inc sec = inc + sec := rfl

/-- A call on the timer object; `now` is `os.time()`. -/
inductive Call (F : Type) where
  | register (sec : ℚ) (f : F) (loop : Bool) (now : Int)
  | unregister (idx : Option Nat)

/-- A timer, the number of its registrations, and what happened so far. -/
structure World (F : Type) where
  timer : State ℚ Nat ℚ F Nat
  tags : Nat
  log : List (Event ℚ Nat)

/-- `timer:new` -/
def World.new (interval : Option Nat) : World F := ⟨init interval, 0, []⟩

/-- One call. A `register` whose assertion fails changes nothing. -/
def World.call (w : World F) : Call F → World F
  | .register sec f loop now =>
    match register w.timer sec w.tags f loop now with
    | none => w
    | some (t, idx) =>
      { timer := t, tags := w.tags + 1,
        log := w.log ++ [.registered w.tags idx w.timer.inc sec loop] }
  | .unregister none => w
  | .unregister (some idx) =>
    { w with timer := unregister w.timer (some idx), log := w.log ++ [.unregistered idx] }

/-- One turn of the second loop of `on_time_out`: the callback under `idx`
makes `calls`, then raises or returns, at the time `now`. -/
structure Visit (F : Type) where
  idx : Nat
  calls : List (Call F)
  raises : Bool
  now : Int

/-- `callback.f(callback.param)`, up to where it raises or returns. -/
def World.invoke (w : World F) (callback : Callback ℚ F Nat) (v : Visit F) : World F :=
  v.calls.foldl World.call
    { w with log := w.log ++ [.invoked callback.param v.idx w.timer.inc] }

/-- The second loop of `on_time_out`; `false` where a callback raised, which
ends it. -/
def World.visits (w : World F) : List (Visit F) → World F × Bool
  | [] => (w, true)
  | v :: vs =>
    match entry w.timer w.timer.inc v.idx with
    | none => w.visits vs
    | some callback =>
      let w := w.invoke callback v
      if v.raises then (w, false)
      else World.visits { w with timer := reschedule w.timer v.idx callback v.now } vs

/-- `timer:on_time_out`; `false` where a callback raised. The next tick is
armed first thing, whatever happens in this one. -/
def World.onTimeOut (w : World F) (vs : List (Visit F)) : World F × Bool :=
  let w := { w with timer := advance w.timer }
  match w.timer.callbacks w.timer.inc with
  | none => (w, true)
  | some slot =>
    match World.visits { w with timer := purgeSlot w.timer slot } vs with
    | (w, false) => (w, false)
    | (w, true) => ({ w with timer := clearSlot w.timer }, true)

/-- The visits meet the slot of the tick as `pairs` does: all of it, each `idx`
once. -/
def Traverses (t : State ℚ Nat ℚ F Nat) (vs : List (Visit F)) : Prop :=
  (vs.map Visit.idx).Nodup ∧
    ∀ idx, idx ∈ vs.map Visit.idx ↔ (entry (due t) (due t).inc idx).isSome

/-- A tick that finds no slot has no callback to call. -/
theorem onTimeOut_none {w : World F} {vs : List (Visit F)}
    (h : (due w.timer).callbacks (due w.timer).inc = none) :
    w.onTimeOut vs = ({ w with timer := due w.timer }, true) := by
  have hkey : Numbers.key ℚ (advance w.timer).inc = ((advance w.timer).inc : ℚ) := rfl
  unfold World.onTimeOut
  unfold due at h ⊢
  rw [hkey] at h ⊢
  cases hs : (advance w.timer).callbacks (advance w.timer).inc with
  | none => simp only [hs]
  | some slot => simp [hs, purgeSlot, hkey] at h

/-- One that finds its slot goes through it. -/
theorem onTimeOut_some {w : World F} {vs : List (Visit F)} {slot : Slot ℚ F Nat}
    (h : (due w.timer).callbacks (due w.timer).inc = some slot) :
    w.onTimeOut vs = match World.visits { w with timer := due w.timer } vs with
      | (w, false) => (w, false)
      | (w, true) => ({ w with timer := clearSlot w.timer }, true) := by
  have hkey : Numbers.key ℚ (advance w.timer).inc = ((advance w.timer).inc : ℚ) := rfl
  unfold World.onTimeOut
  unfold due at h ⊢
  rw [hkey] at h ⊢
  cases hs : (advance w.timer).callbacks (advance w.timer).inc with
  | none => simp [hs] at h
  | some slot => simp only [hs]

theorem Traverses.eq_nil {t : State ℚ Nat ℚ F Nat} {vs : List (Visit F)} (ht : Traverses t vs)
    (h : (due t).callbacks (due t).inc = none) : vs = [] := by
  have hidxs : vs.map Visit.idx = [] := List.eq_nil_iff_forall_not_mem.mpr fun i hi => by
    have hheld := (ht.2 i).mp hi
    rw [entry, h] at hheld
    cases hheld
  exact List.map_eq_nil_iff.mp hidxs

/-- A tick is its second loop, with its slot cleared or, after an error, left. -/
theorem onTimeOut_cases {w : World F} {vs : List (Visit F)} (ht : Traverses w.timer vs) :
    (w.onTimeOut vs).1 = (World.visits { w with timer := due w.timer } vs).1 ∧
        (vs = [] ∨ (World.visits { w with timer := due w.timer } vs).2 = false) ∨
      (w.onTimeOut vs).1 = { (World.visits { w with timer := due w.timer } vs).1 with
          timer := clearSlot (World.visits { w with timer := due w.timer } vs).1.timer } ∧
        (World.visits { w with timer := due w.timer } vs).2 = true := by
  cases hs : (due w.timer).callbacks (due w.timer).inc with
  | none =>
    obtain rfl := ht.eq_nil hs
    rw [onTimeOut_none hs]
    exact .inl ⟨rfl, .inl rfl⟩
  | some slot =>
    rw [onTimeOut_some hs]
    split <;> rename_i hv <;> rw [hv]
    · exact .inl ⟨rfl, .inr rfl⟩
    · exact .inr ⟨rfl, rfl⟩

/-- A step of a run. -/
inductive Step (F : Type) where
  | call (c : Call F)
  | tick (vs : List (Visit F))

def World.exec (w : World F) : Step F → World F
  | .call c => w.call c
  | .tick vs => (w.onTimeOut vs).1

/-- Between two ticks anything can be called; the visits of a tick are those of its slot. -/
def Legal (w : World F) : Step F → Prop
  | .call _ => True
  | .tick vs => Traverses w.timer vs

/-! ## Invariants -/

/-- What the pieces of a run keep: `I` between two ticks, `J w cur todo` in a
tick, with the callback `cur` running (none between two callbacks) and the
`idx`s of `todo` still to come. -/
structure Kept (I : World F → Prop)
    (J : World F → Option (Nat × Callback ℚ F Nat) → List Nat → Prop) : Prop where
  idle {w : World F} (c : Call F) : I w → I (w.call c)
  start {w : World F} {todo : List Nat} : I w → todo.Nodup →
    (∀ i, i ∈ todo ↔ (entry (due w.timer) (due w.timer).inc i).isSome) →
    J { w with timer := due w.timer } none todo
  invoke {w : World F} {i : Nat} {todo : List Nat} {callback : Callback ℚ F Nat} :
    J w none (i :: todo) → entry w.timer w.timer.inc i = some callback →
    J { w with log := w.log ++ [.invoked callback.param i w.timer.inc] } (some (i, callback)) todo
  skip {w : World F} {i : Nat} {todo : List Nat} :
    J w none (i :: todo) → entry w.timer w.timer.inc i = none → J w none todo
  busy {w : World F} {i : Nat} {callback : Callback ℚ F Nat} {todo : List Nat} (c : Call F) :
    J w (some (i, callback)) todo → J (w.call c) (some (i, callback)) todo
  back {w : World F} {i : Nat} {callback : Callback ℚ F Nat} {todo : List Nat} (now : Int) :
    J w (some (i, callback)) todo →
    J { w with timer := reschedule w.timer i callback now } none todo
  raise {w : World F} {i : Nat} {callback : Callback ℚ F Nat} {todo : List Nat} :
    J w (some (i, callback)) todo → I w
  finish {w : World F} : J w none [] → I { w with timer := clearSlot w.timer }
  noSlot {w : World F} : J w none [] → I w

namespace Kept

variable {I : World F → Prop} {J : World F → Option (Nat × Callback ℚ F Nat) → List Nat → Prop}

theorem calls (k : Kept I J) {i : Nat} {callback : Callback ℚ F Nat} {todo : List Nat} :
    ∀ (cs : List (Call F)) {w : World F}, J w (some (i, callback)) todo →
      J (cs.foldl World.call w) (some (i, callback)) todo
  | [], _, hj => hj
  | c :: cs, _, hj => k.calls cs (k.busy c hj)

/-- The second loop of a tick, by induction on its visits. -/
theorem visits (k : Kept I J) :
    ∀ (vs : List (Visit F)) {w : World F}, J w none (vs.map Visit.idx) →
      ((w.visits vs).2 = true → J (w.visits vs).1 none []) ∧
      ((w.visits vs).2 = false → I (w.visits vs).1)
  | [], w, hj => ⟨fun _ => hj, nofun⟩
  | v :: vs, w, hj => by
    rw [World.visits]
    cases he : entry w.timer w.timer.inc v.idx with
    | none => exact k.visits vs (k.skip hj he)
    | some callback =>
      have hj := k.calls v.calls (k.invoke hj he)
      cases hr : v.raises with
      | true => exact ⟨by simp, fun _ => k.raise hj⟩
      | false => exact k.visits vs (k.back v.now hj)

theorem onTimeOut (k : Kept I J) {w : World F} {vs : List (Visit F)} (hi : I w)
    (ht : Traverses w.timer vs) : I (w.onTimeOut vs).1 := by
  have hj := k.start hi ht.1 ht.2
  obtain ⟨h₁, h₂⟩ := k.visits vs hj
  rcases onTimeOut_cases ht with ⟨e, rfl | hr⟩ | ⟨e, hr⟩ <;> rw [e]
  · exact k.noSlot hj
  · exact h₂ hr
  · exact k.finish (h₁ hr)

/-- Every run keeps the invariant. -/
theorem reach (k : Kept I J) {w₀ w : World F} (h : Machine.Reach World.exec Legal w₀ w) (h₀ : I w₀) :
    I w :=
  h.invariant h₀ fun _ s hi hs =>
    match s with
    | .call c => k.idle c hi
    | .tick _ => k.onTimeOut hi hs

end Kept

end SkynetHotfix.Timer
