import SkynetHotfix.Timer.Places

/-!
# Timers: what `unregister` stops

`unregister` queues an `idx` for the tick that meets it in its slot, and that tick looks at the queue
before it runs its first callback. So a callback that a tick under way has still to meet runs once
more, whether another callback of the tick unregisters it (`same_tick_invoked`) or, while that one
yields, a message handler does. In runs whose calls are `Timely`, raising callbacks, ticks that
overlap and a wrapping counter included, `unregister` is final (`invoked_not_cancelled`): what is
still to come and has been cancelled is in the queue, and is not to be met by a tick under way
(`Stopped`).
-/

namespace SkynetHotfix.Timer.Overlap

open Lua (Number NumKey intKey)

variable {F : Type} {w w' : World Number Int64 NumKey F} {op : Op Number F}

/-- What is unregistered is not to be met any more by a tick under way. -/
def World.Timely (w : World Number Int64 NumKey F) : Op Number F → Prop
  | .unregister (some idx) => ∀ tick ∈ w.ticks, idx ∉ tick.todo
  | _ => True

instance (w : World Number Int64 NumKey F) : ∀ op, Decidable (w.Timely op)
  | .unregister (some _) => inferInstanceAs (Decidable (∀ tick ∈ _, _ ∉ _))
  | .unregister none | .register .. | .start _ | .invoke _ | .returns .. | .raises _ | .finish _ =>
    .isTrue trivial

structure Stopped (w : World Number Int64 NumKey F) : Prop where
  placed : Placed w
  registered : ∀ p i callback, At w p i callback →
    ∃ inc sec loop, .registered callback.param i inc sec loop ∈ w.log
  queue : ∀ p i callback, At w p i callback → Cancelled callback.param w.log →
    i ∈ w.timer.unregister_idx
  todo : ∀ inc i callback, At w (.todo inc) i callback → ¬ Cancelled callback.param w.log
  tags : ∀ tag idx inc sec loop, .registered tag idx inc sec loop ∈ w.log → tag < w.tags
  same : ∀ tag idx idx' inc inc' sec sec' loop loop', .registered tag idx inc sec loop ∈ w.log →
    .registered tag idx' inc' sec' loop' ∈ w.log → idx = idx'
  final : Final w.log

theorem stopped_new (interval : Option Nat) :
    Stopped (.new interval : World Number Int64 NumKey F) := by
  have hnone : ∀ p i callback, ¬ At (.new interval : World Number Int64 NumKey F) p i callback := by
    intro p i callback h
    have hknown := (placed_new interval).known p i callback h
    cases hknown
  refine ⟨placed_new interval, fun _ _ _ h => absurd h (hnone _ _ _),
    fun _ _ _ h => absurd h (hnone _ _ _), fun _ _ _ h => absurd h (hnone _ _ _), ?_, ?_, ?_⟩ <;>
    simp [World.new, Final]

/-- A step that cancels nothing, after which no more is at any place. -/
theorem Stopped.of_at (h : Stopped w) (hp : Placed w') (htags : w'.tags = w.tags)
    (hlog : w'.log = w.log)
    (hat : ∀ p i callback, At w' p i callback →
      (At w p i callback ∧ (i ∈ w.timer.unregister_idx → i ∈ w'.timer.unregister_idx)))
    : Stopped w' where
  placed := hp
  registered p i callback h' := hlog ▸ h.registered p i callback (hat _ _ _ h').1
  queue p i callback h' hc :=
    (hat _ _ _ h').2 (h.queue p i callback (hat _ _ _ h').1 (hlog ▸ hc))
  todo inc i callback h' := hlog ▸ h.todo inc i callback (hat _ _ _ h').1
  tags := by rw [hlog, htags]; exact h.tags
  same := by rw [hlog]; exact h.same
  final := hlog ▸ h.final

theorem Stopped.register (h : Stopped w) {sec : Number} {f : F} {loop : Bool} {now : Int}
    {t : State Number Int64 NumKey F Nat} (hsec : sec.Pos)
    (ht : register w.timer sec w.tags f loop now = some (t, nextIdx w.timer.timer_idx))
    (hp : Placed ⟨t, w.ticks, w.tags + 1, w.log ++
      [.registered w.tags (nextIdx w.timer.timer_idx) w.timer.inc sec loop]⟩) :
    Stopped ⟨t, w.ticks, w.tags + 1, w.log ++
      [.registered w.tags (nextIdx w.timer.timer_idx) w.timer.inc sec loop]⟩ := by
  obtain ⟨t', e, -, -, hq, -, -⟩ := register_of_pos w.timer hsec w.tags f loop now
  obtain ⟨rfl, -⟩ := Prod.mk.inj (Option.some.inj (e.symm.trans ht))
  have hcan : ∀ {tag}, Cancelled tag (w.log ++ [.registered w.tags (nextIdx w.timer.timer_idx)
      w.timer.inc sec loop]) → Cancelled tag w.log := fun hc => by
    rcases cancelled_append hc with hc | ⟨_, _, _, _, e, -⟩
    · exact hc
    · cases e
  have hnew : ¬ Cancelled w.tags w.log := by
    intro hc
    obtain ⟨idx, inc, sec, loop, hm⟩ := hc.mem
    exact Nat.lt_irrefl _ (h.tags _ _ _ _ _ hm)
  refine ⟨hp, fun p i callback hat => ?_, fun p i callback hat hc => ?_,
    fun inc i callback hat hc => ?_, ?_, ?_, h.final.append fun _ _ _ e => by cases e⟩
  · rw [at_register hsec ht] at hat
    split at hat
    · rename_i hi
      obtain ⟨rfl, -⟩ := hat
      exact ⟨w.timer.inc, sec, loop, by simp [hi.2]⟩
    · obtain ⟨inc, sec', loop', hm⟩ := h.registered p i callback hat
      exact ⟨inc, sec', loop', List.mem_append_left _ hm⟩
  · rw [at_register hsec ht] at hat
    split at hat
    · obtain ⟨rfl, -⟩ := hat
      exact absurd (hcan hc) hnew
    · exact hq ▸ h.queue p i callback hat (hcan hc)
  · rw [at_register hsec ht, if_neg fun e => by cases e.1] at hat
    exact h.todo inc i callback hat (hcan hc)
  · intro tag idx inc sec' loop' hm
    rcases List.mem_append.mp hm with hm | hm
    · exact Nat.lt_succ_of_lt (h.tags _ _ _ _ _ hm)
    · simp only [List.mem_singleton, Event.registered.injEq] at hm
      rw [hm.1]
      exact Nat.lt_succ_self _
  · intro tag idx idx' inc inc' sec sec' loop loop' hm hm'
    simp only [List.mem_append, List.mem_singleton, Event.registered.injEq] at hm hm'
    rcases hm with hm | ⟨rfl, rfl, -⟩ <;> rcases hm' with hm' | ⟨hg, rfl, -⟩
    · exact h.same _ _ _ _ _ _ _ _ _ hm hm'
    · exact absurd (hg ▸ h.tags _ _ _ _ _ hm) (Nat.lt_irrefl _)
    · exact absurd (h.tags _ _ _ _ _ hm') (Nat.lt_irrefl _)
    · rfl

/-- What `unregister` names is known to `timer_idxs` wherever it is, and is not to be met. -/
theorem Stopped.unregister (h : Stopped w) {idx : Nat} (htimely : w.Timely (.unregister (some idx)))
    (hp : Placed { w with
      timer := unregister w.timer (some idx), log := w.log ++ [.unregistered idx] }) :
    Stopped { w with
      timer := unregister w.timer (some idx), log := w.log ++ [.unregistered idx] } := by
  -- what is cancelled now was cancelled before or is what is named
  have hcan : ∀ {p i callback}, At w p i callback →
      Cancelled callback.param (w.log ++ [.unregistered idx]) →
      Cancelled callback.param w.log ∨ i = idx := by
    intro p i callback hat hc
    refine (cancelled_append hc).imp_right ?_
    rintro ⟨_, inc, sec, loop, e, hm⟩
    cases e
    obtain ⟨inc', sec', loop', hm'⟩ := h.registered p i callback hat
    exact h.same _ _ _ _ _ _ _ _ _ hm' hm
  refine ⟨hp, fun p i callback hat => ?_, fun p i callback hat hc => ?_,
    fun inc i callback hat hc => ?_, fun tag i inc sec loop hm => ?_,
    fun tag i i' inc inc' sec sec' loop loop' hm hm' => ?_, h.final.append fun _ _ _ e => by cases e⟩
  · obtain ⟨inc, sec, loop, hm⟩ := h.registered p i callback (at_unregister.mp hat)
    exact ⟨inc, sec, loop, List.mem_append_left _ hm⟩
  · have hold := at_unregister.mp hat
    refine mem_unregister.mpr ?_
    rcases hcan hold hc with hc | rfl
    · exact .inl (h.queue p i callback hold hc)
    · exact .inr ⟨rfl, by rw [h.placed.known _ _ _ hold]; simp⟩
  · have hold := at_unregister.mp hat
    rcases hcan hold hc with hc | rfl
    · exact h.todo inc i callback hold hc
    · obtain ⟨tick, hm, -, hi, -⟩ := hold
      exact htimely tick hm hi
  · exact h.tags tag i inc sec loop (by simpa using hm)
  · exact h.same tag i i' inc inc' sec sec' loop loop' (by simpa using hm) (by simpa using hm')

/-- A callback that is called was still to be met, so it has not been cancelled. -/
theorem Stopped.invoke (h : Stopped w) {n : Nat} {inc : Int64} {slot : Slot Number F Nat} {idx : Nat}
    {todo : List Nat} {callback : Callback Number F Nat}
    (hn : w.ticks[n]? = some ⟨inc, slot, idx :: todo, none⟩) (hidx : slot idx = some callback)
    (hp : Placed { w with
      ticks := w.ticks.set n ⟨inc, slot, todo, some (idx, callback)⟩,
      log := w.log ++ [.invoked callback.param idx w.timer.inc] }) :
    Stopped { w with
      ticks := w.ticks.set n ⟨inc, slot, todo, some (idx, callback)⟩,
      log := w.log ++ [.invoked callback.param idx w.timer.inc] } := by
  have hcan : ∀ {tag}, Cancelled tag (w.log ++ [.invoked callback.param idx w.timer.inc]) →
      Cancelled tag w.log := fun hc => by
    rcases cancelled_append hc with hc | ⟨_, _, _, _, e, -⟩
    · exact hc
    · cases e
  have hmet : At w (.todo inc) idx callback :=
    ⟨_, List.mem_of_getElem? hn, rfl, List.mem_cons_self, hidx⟩
  refine ⟨hp, fun p i callback' hat => ?_, fun p i callback' hat hc => ?_,
    fun inc' i callback' hat hc => ?_, fun tag i inc sec loop hm => ?_,
    fun tag i i' inc inc' sec sec' loop loop' hm hm' => ?_, h.final.append ?_⟩
  · obtain ⟨p', hat, -⟩ := hat.of_invoke h.placed.orderly hn hidx
    obtain ⟨inc, sec, loop, hm⟩ := h.registered p' i callback' hat
    exact ⟨inc, sec, loop, List.mem_append_left _ hm⟩
  · obtain ⟨p', hat, -⟩ := hat.of_invoke h.placed.orderly hn hidx
    exact h.queue p' i callback' hat (hcan hc)
  · obtain ⟨p', hat, he⟩ := hat.of_invoke h.placed.orderly hn hidx
    obtain rfl := he inc' rfl
    exact h.todo inc' i callback' hat (hcan hc)
  · exact h.tags tag i inc sec loop (by simpa using hm)
  · exact h.same tag i i' inc inc' sec sec' loop loop' (by simpa using hm) (by simpa using hm')
  · rintro _ _ _ ⟨⟩ hc
    exact h.todo inc idx callback hmet hc

/-- A loop timer that returns takes its place in the queue with it. -/
theorem Stopped.returns (h : Stopped w) {n : Nat} {inc : Int64} {slot : Slot Number F Nat}
    {todo : List Nat} {idx : Nat} {callback : Callback Number F Nat} (now : Int)
    (hn : w.ticks[n]? = some ⟨inc, slot, todo, some (idx, callback)⟩)
    (hp : Placed { w with
      timer := reschedule w.timer idx callback now,
      ticks := w.ticks.set n ⟨inc, slot, todo, none⟩ }) :
    Stopped { w with
      timer := reschedule w.timer idx callback now,
      ticks := w.ticks.set n ⟨inc, slot, todo, none⟩ } := by
  refine ⟨hp, fun p i callback' hat => ?_, fun p i callback' hat hc => ?_,
    fun inc' i callback' hat hc => ?_, h.tags, h.same, h.final⟩
  · obtain ⟨p', start_time, hat, -⟩ := hat.of_returns h.placed.orderly hn
    exact h.registered p' i { callback' with start_time } hat
  · obtain ⟨p', start_time, hat, -⟩ := hat.of_returns h.placed.orderly hn
    rw [reschedule_unregister_idx]
    exact h.queue p' i { callback' with start_time } hat hc
  · obtain ⟨p', start_time, hat, he⟩ := hat.of_returns h.placed.orderly hn
    obtain rfl := he inc' rfl
    exact h.todo inc' i { callback' with start_time } hat hc

/-- A tick that starts has dropped what is queued of what it is to meet. -/
theorem Stopped.start (h : Stopped w) (hb : w.timer.inc < Int64.maxValue) {order : List Nat}
    (hl : w.Legal (.start order)) {slot : Slot Number F Nat}
    (hslot : (due w.timer).callbacks (Numbers.key Number (due w.timer).inc) = some slot)
    (hp : Placed { w with
      timer := due w.timer, ticks := w.ticks ++ [⟨(due w.timer).inc, slot, order, none⟩] }) :
    Stopped { w with
      timer := due w.timer, ticks := w.ticks ++ [⟨(due w.timer).inc, slot, order, none⟩] } := by
  refine ⟨hp, fun p i callback hat => ?_, fun p i callback hat hc => ?_,
    fun inc i callback hat hc => ?_, h.tags, h.same, h.final⟩
  · rcases (at_start hb hl hslot).mp hat with ⟨hat, -⟩ | ⟨-, hat, -⟩
    · exact h.registered p i callback hat
    · exact h.registered _ i callback hat
  · rcases (at_start hb hl hslot).mp hat with ⟨hat, hp⟩ | ⟨-, hat, hq⟩
    · exact h.placed.due_queue hb hat hp (h.queue p i callback hat hc)
    · exact absurd (h.queue _ i callback hat hc) hq
  · rcases (at_start hb hl hslot).mp hat with ⟨hat, -⟩ | ⟨-, hat, hq⟩
    · exact h.todo inc i callback hat hc
    · exact hq (h.queue _ i callback hat hc)

theorem Stopped.does (h : Stopped w) (hdoes : Does w op w') (hop : w.Regular op)
    (htimely : w.Timely op) : Stopped w' := by
  have hp := h.placed.does hdoes hop
  obtain ⟨hl, hb, -⟩ := hop
  cases hdoes with
  | nothing => exact h
  | register hsec ht => exact h.register hsec ht hp
  | unregister idx => exact h.unregister htimely hp
  | idle hslot =>
    refine h.of_at hp rfl rfl fun p i callback hat => ?_
    obtain ⟨hat, hp⟩ := (at_idle hb).mp hat
    exact ⟨hat, h.placed.due_queue hb hat hp⟩
  | start hslot => exact h.start hb hl hslot hp
  | invoke hn hidx => exact h.invoke hn hidx hp
  | returns now hn => exact h.returns now hn hp
  | raises hn =>
    exact h.of_at hp rfl rfl fun p i callback hat =>
      ⟨((at_raises h.placed.orderly hn).mp hat).2.2, id⟩
  | finish hn =>
    exact h.of_at hp rfl rfl fun p i callback hat =>
      ⟨(at_finish h.placed.orderly hn).mp hat, id⟩

/-- In a run of timely calls, whatever raises or yields, a callback is not invoked any more once
`unregister` of its `idx` has returned. -/
theorem invoked_not_cancelled {interval : Option Nat} {w : World Number Int64 NumKey F}
    (h : Machine.Reach World.exec (fun w op => w.Regular op ∧ w.Apart op ∧ w.Timely op)
      (.new interval) w)
    (l₁ l₂ : List (Event Number Int64)) (tag idx : Nat) (inc : Int64)
    (hl : w.log = l₁ ++ .invoked tag idx inc :: l₂) : ¬ Cancelled tag l₁ :=
  (invariant_of_does Stopped h (stopped_new interval) fun _ _ _ h hop hdoes =>
    h.does hdoes hop.1 hop.2.2).final l₁ l₂ tag idx inc hl

/-- Two loop timers, the first of which stops the second in its first tick and raises in its next. -/
def stopping : List (Op Number Unit) :=
  [.register (.int 1) () true 0, .register (.int 2) () true 0, .start [1], .invoke 0,
    .unregister (some 2), .returns 0 1, .finish 0, .start [1], .invoke 0, .raises 0]

theorem invoked_not_cancelled_sample :
    ¬ Cancelled 0 [.registered 0 1 0 (.int 1) true, .registered 1 2 0 (Number.int 2) true,
      .invoked 0 1 (1 : Int64), .unregistered 2] := by
  have h := reach_of_checked (K := NumKey) (fun w op => w.Below op ∧ w.Spare op ∧ w.Apart op ∧
    w.Timely op) none stopping (by decide +kernel) (by decide +kernel)
  exact invoked_not_cancelled (h.mono fun w op hop => ⟨⟨hop.1, hop.2.1, hop.2.2.1⟩, hop.2.2.2⟩)
    _ [] 0 1 2 (by decide +kernel)

/-- Two one-shot timers due in the same tick, the first of which stops the second. -/
def sameTick : List (Op Number Unit) :=
  [.register (.int 1) () false 0, .register (.int 1) () false 0, .start [1, 2], .invoke 0,
    .unregister (some 2), .returns 0 1, .invoke 0]

/-- The second is invoked all the same. -/
theorem same_tick_invoked :
    ¬ ∀ w : World Number Int64 NumKey Unit, Machine.Reach World.exec World.Legal (.new none) w →
      ∀ l₁ l₂ tag idx inc, w.log = l₁ ++ .invoked tag idx inc :: l₂ → ¬ Cancelled tag l₁ := by
  intro h
  have hreach := reach_of_checked (K := NumKey) (fun _ _ => True) none sameTick (by decide +kernel)
    (by decide +kernel)
  refine h _ (hreach.mono fun _ _ => And.left) [.registered 0 1 0 (.int 1) false,
    .registered 1 2 0 (.int 1) false, .invoked 0 1 1, .unregistered 2] [] 1 2 1
    (by decide +kernel) ?_
  exact ⟨[.registered 0 1 0 (.int 1) false], [.invoked 0 1 1, .unregistered 2], 2, 0, .int 1, false,
    rfl, by decide⟩

end SkynetHotfix.Timer.Overlap
