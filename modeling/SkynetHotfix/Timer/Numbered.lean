import SkynetHotfix.Timer.Overlap

/-!
# Timers: runs in which the counter has not wrapped

In every run of up to 2147483646 registrations `idx` is the number of the registration plus one
(`Numbered`), wherever it is found. So a slot need only be looked through up to that number
(`Numbered.legal_start`).
-/

namespace SkynetHotfix.Timer.Overlap

open Numbers (key Pos plus)

variable {N I K F : Type}

/-- The callback is under the `idx` that its registration was given. -/
def Own (w : World N I K F) (i : Nat) (callback : Callback N F Nat) : Prop :=
  i = callback.param + 1 ∧ callback.param < w.tags

/-- The counter has not wrapped: `idx` is the number of the registration plus one. -/
structure Numbered [Numbers N I K] (w : World N I K F) : Prop where
  counter : w.timer.timer_idx = w.tags
  entry : ∀ s i callback, entry w.timer s i = some callback → Own w i callback
  slot : ∀ tick ∈ w.ticks, ∀ i callback, tick.slot i = some callback → Own w i callback
  current : ∀ tick ∈ w.ticks, ∀ i callback, tick.current = some (i, callback) → Own w i callback
  queue : ∀ i ∈ w.timer.unregister_idx, i ≤ w.tags
  known : ∀ i, w.timer.timer_idxs i ≠ none → i ≤ w.tags
  registered : ∀ g idx inc sec loop, .registered g idx inc sec loop ∈ w.log →
    idx = g + 1 ∧ g < w.tags ∧ Pos sec
  invoked : ∀ g idx inc, .invoked g idx inc ∈ w.log → g < w.tags

variable [Numbers N I K] {w w' : World N I K F} {op : Op N F}

/-- The counter goes on from the number of registrations. -/
theorem Numbered.nextIdx (h : Numbered w) (hb : w.tags + 1 ≤ 2147483646) :
    nextIdx w.timer.timer_idx = w.tags + 1 := by
  rw [h.counter, Timer.nextIdx, if_neg (by omega)]

theorem numbered_new (interval : Option Nat) : Numbered (.new interval : World N I K F) where
  counter := rfl
  entry := by intro s i callback h; simp [Timer.entry, World.new, init] at h
  slot := by simp [World.new]
  current := by simp [World.new]
  queue := by simp [World.new, init]
  known := by simp [World.new, init]
  registered := by simp [World.new]
  invoked := by simp [World.new]

variable [DecidableEq K]

theorem Does.tags_le (hdoes : Does w op w') : w.tags ≤ w'.tags := by
  cases hdoes <;> first | exact le_rfl | exact Nat.le_succ _

theorem Numbered.does (h : Numbered w) (hdoes : Does w op w') (hb : w'.tags ≤ 2147483646) :
    Numbered w' := by
  have hmem : ∀ {tick tick' : Tick N I F} {n : Nat}, tick ∈ w.ticks.set n tick' →
      tick ∈ w.ticks ∨ tick = tick' := List.mem_or_eq_of_mem_set
  cases hdoes with
  | nothing => exact h
  | @register sec f loop now t hsec ht =>
    obtain ⟨t', e, -, hc, hq, hk, he⟩ := register_of_pos w.timer hsec w.tags f loop now
    obtain ⟨rfl, -⟩ := Prod.mk.inj (Option.some.inj (e.symm.trans ht))
    have hnext := h.nextIdx hb
    have hown : ∀ {i callback}, Own w i callback → i = callback.param + 1 ∧
        callback.param < w.tags + 1 := fun ho => ⟨ho.1, Nat.lt_succ_of_lt ho.2⟩
    constructor
    · rw [hc, hnext]
    · intro s i callback hs
      rw [he] at hs
      split at hs
      · rename_i hsi
        cases hs
        exact ⟨hsi.2.trans hnext, Nat.lt_succ_self _⟩
      · exact hown (h.entry _ _ _ hs)
    · exact fun tick hm i callback hc => hown (h.slot tick hm i callback hc)
    · exact fun tick hm i callback hc => hown (h.current tick hm i callback hc)
    · exact fun i hm => Nat.le_succ_of_le (h.queue i (hq ▸ hm))
    · intro i hm
      by_cases e : i = w.tags + 1
      · exact e.le
      · rw [hk, hnext, Function.update_of_ne e] at hm
        exact Nat.le_succ_of_le (h.known i hm)
    · intro g idx inc sec' loop' hm
      rcases List.mem_append.mp hm with hm | hm
      · obtain ⟨h₁, h₂, h₃⟩ := h.registered _ _ _ _ _ hm
        exact ⟨h₁, Nat.lt_succ_of_lt h₂, h₃⟩
      · simp only [List.mem_singleton, Event.registered.injEq] at hm
        obtain ⟨rfl, rfl, -, rfl, -⟩ := hm
        exact ⟨hnext, Nat.lt_succ_self _, hsec⟩
    · intro g idx inc hm
      rcases List.mem_append.mp hm with hm | hm
      · exact Nat.lt_succ_of_lt (h.invoked _ _ _ hm)
      · simp at hm
  | unregister idx =>
    refine ⟨by simpa using h.counter, fun s i callback hs => h.entry s i callback (by simpa using hs),
      h.slot, h.current, fun i hm => ?_, by simpa using h.known, fun g i inc sec loop hm => ?_, fun g i inc hm => ?_⟩
    · rcases mem_unregister.mp hm with hm | ⟨rfl, hm⟩
      · exact h.queue i hm
      · exact h.known i hm
    · exact h.registered g i inc sec loop (by simpa using hm)
    · exact h.invoked g i inc (by simpa using hm)
  | idle hslot =>
    exact ⟨(due_timer_idx _).trans h.counter, fun s i callback hs => h.entry _ _ _
      (entry_due_subset hs), h.slot, h.current, fun i hm => h.queue i ((due_queue ..).1 hm),
      fun i hm => h.known i fun e => hm (by rw [due_timer_idxs, e, ite_self]), h.registered,
      h.invoked⟩
  | @start order slot hslot =>
    refine ⟨(due_timer_idx _).trans h.counter, fun s i callback hs => h.entry _ _ _
      (entry_due_subset hs), fun tick hm => ?_, fun tick hm => ?_,
      fun i hm => h.queue i ((due_queue ..).1 hm),
      fun i hm => h.known i fun e => hm (by rw [due_timer_idxs, e, ite_self]), h.registered,
      h.invoked⟩
    · rcases List.mem_append.mp hm with hm | hm
      · exact h.slot tick hm
      · intro i callback hs
        obtain rfl := List.mem_singleton.mp hm
        have hs : Timer.entry (due w.timer) (key N (due w.timer).inc) i = some callback := by
          rw [Timer.entry, hslot]
          exact hs
        exact h.entry _ _ _ (entry_due_subset hs)
    · rcases List.mem_append.mp hm with hm | hm
      · exact h.current tick hm
      · obtain rfl := List.mem_singleton.mp hm
        exact fun _ _ h => by cases h
  | @invoke n inc slot idx todo callback hn hidx =>
    have htick := List.mem_of_getElem? hn
    have hown := h.slot _ htick _ _ hidx
    refine ⟨h.counter, h.entry, fun tick hm => ?_, fun tick hm => ?_, h.queue, h.known,
      fun g i inc sec loop hm => h.registered g i inc sec loop (by simpa using hm),
      fun g i inc hm => ?_⟩
    · rcases hmem hm with hm | rfl
      · exact h.slot tick hm
      · exact fun i c hc => h.slot _ htick i c hc
    · rcases hmem hm with hm | rfl
      · exact h.current tick hm
      · rintro _ _ ⟨⟩
        exact hown
    · rcases List.mem_append.mp hm with hm | hm
      · exact h.invoked _ _ _ hm
      · simp only [List.mem_singleton, Event.invoked.injEq] at hm
        rw [hm.1]
        exact hown.2
  | @returns n inc slot todo idx callback now hn =>
    have htick := List.mem_of_getElem? hn
    have hown := h.current _ htick _ _ rfl
    refine ⟨(reschedule_timer_idx ..).trans h.counter, fun s j callback' hs => ?_,
      fun tick hm => ?_, fun tick hm => ?_, fun j hm => h.queue j (by simpa using hm),
      fun j hm => ?_, h.registered, h.invoked⟩
    · rw [entry_reschedule] at hs
      split at hs
      · rename_i hc
        cases hs
        exact ⟨hc.2.2.trans hown.1, hown.2⟩
      · exact h.entry _ _ _ hs
    · rcases hmem hm with hm | rfl
      · exact h.slot tick hm
      · exact fun i c hc => h.slot _ htick i c hc
    · rcases hmem hm with hm | rfl
      · exact h.current tick hm
      · exact fun _ _ h => by cases h
    · rw [reschedule_timer_idxs] at hm
      by_cases e : j = idx
      · rw [e, hown.1]
        exact hown.2
      · rw [Function.update_of_ne e] at hm
        exact h.known j hm
  | raises hn =>
    exact ⟨h.counter, h.entry, fun tick hm => h.slot tick (List.mem_of_mem_eraseIdx hm),
      fun tick hm => h.current tick (List.mem_of_mem_eraseIdx hm), h.queue, h.known, h.registered,
      h.invoked⟩
  | finish hn =>
    refine ⟨h.counter, fun s i callback hs => ?_,
      fun tick hm => h.slot tick (List.mem_of_mem_eraseIdx hm),
      fun tick hm => h.current tick (List.mem_of_mem_eraseIdx hm), h.queue, h.known, h.registered,
      h.invoked⟩
    rw [entry_clearSlot] at hs
    split at hs
    · cases hs
    · exact h.entry _ _ _ hs

/-- Every run of up to 2147483646 registrations is numbered. -/
theorem numbered_of_reach {ok : World N I K F → Op N F → Prop} {interval : Option Nat}
    (hw : Machine.Reach World.exec ok (.new interval) w) (hb : w.tags ≤ 2147483646) : Numbered w :=
  invariant_of_does (fun w => w.tags ≤ 2147483646 → Numbered w) hw
    (fun _ => numbered_new interval)
    (fun _ _ _ h _ hdoes hb => (h (hdoes.tags_le.trans hb)).does hdoes hb) hb

/-- The order of a tick is checked on the `idx`s handed out. -/
def World.Checked (w : World N I K F) : Op N F → Prop
  | .start order => order.Nodup ∧ (∀ i ∈ order, i ≤ w.tags) ∧ ∀ i < w.tags + 1, i ∈ order ↔
      (Timer.entry (due w.timer) (key N (due w.timer).inc) i).isSome
  | _ => True

instance (w : World N I K F) : ∀ op, Decidable (w.Checked op)
  | .start _ => inferInstanceAs (Decidable (_ ∧ (∀ i ∈ _, _) ∧ _))
  | .register .. | .unregister _ | .invoke _ | .returns .. | .raises _ | .finish _ =>
    .isTrue trivial

/-- In a numbered world that is all that need be checked. -/
theorem Numbered.legal (h : Numbered w) (hop : w.Checked op) : w.Legal op := by
  cases op with
  | start order =>
    obtain ⟨hnd, hle, hm⟩ := hop
    refine ⟨hnd, fun i => ⟨fun hi => (hm i (Nat.lt_succ_of_le (hle i hi))).mp hi, fun hi => ?_⟩⟩
    obtain ⟨callback, hc⟩ := Option.isSome_iff_exists.mp hi
    obtain ⟨rfl, hlt⟩ := h.entry _ _ _ (entry_due_subset hc)
    exact (hm _ (Nat.succ_lt_succ hlt)).mpr hi
  | _ => trivial

/-- A run is legal that has been checked step by step. -/
theorem reach_of_checked (ok : World N I K F → Op N F → Prop) (interval : Option Nat)
    (ops : List (Op N F)) (hb : (ops.foldl World.exec (.new interval : World N I K F)).tags ≤ 2147483646)
    (hops : Machine.Allowed World.exec (fun w op => w.Checked op ∧ ok w op) (.new interval) ops) :
    Machine.Reach World.exec (fun w op => w.Legal op ∧ ok w op) (.new interval)
      (ops.foldl World.exec (.new interval)) := by
  have hle : ∀ (ops : List (Op N F)) (w : World N I K F), w.tags ≤ (ops.foldl World.exec w).tags := by
    intro ops
    induction ops with
    | nil => exact fun w => Nat.le_refl _
    | cons op ops ih => exact fun w => (does_exec w op).tags_le.trans (ih _)
  have hallowed : ∀ (ops : List (Op N F)) (w : World N I K F), Numbered w →
      (ops.foldl World.exec w).tags ≤ 2147483646 →
      Machine.Allowed World.exec (fun w op => w.Checked op ∧ ok w op) w ops →
      Machine.Allowed World.exec (fun w op => w.Legal op ∧ ok w op) w ops := by
    intro ops
    induction ops with
    | nil => exact fun _ _ _ _ => trivial
    | cons op ops ih =>
      intro w hn hb hops
      obtain ⟨⟨hop, hok⟩, hops⟩ := hops
      have hnext := hn.does (does_exec w op) ((hle ops _).trans hb)
      exact ⟨⟨hn.legal hop, hok⟩, ih _ hnext hb hops⟩
  exact Machine.Reach.init.run ops (hallowed ops _ (numbered_new interval) hb hops)

end SkynetHotfix.Timer.Overlap
