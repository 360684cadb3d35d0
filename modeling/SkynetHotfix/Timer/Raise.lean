import Mathlib.Data.List.Nodup
import SkynetHotfix.Timer.Run

/-!
# Timers: a tick in which callbacks raise

The loop of `on_time_out` is not protected: an error ends it, with the rest of
the slot neither run nor moved to a later one, and no later tick looks at that
slot again. `survives_iff` says for every tick of every run when that does no
harm: everything from the first callback that raises on raises too and is to
run once (`LateRaises`). The other condition is on the counter: after a wrap
`register` may hand out the `idx` of a loop timer that this tick has just moved,
for the slot it was moved to (`Spared`).

In every run a registration has one place still to come at most (`Single`), so
a loop timer that was not moved is lost.
-/

namespace SkynetHotfix.Timer

variable {F : Type}

/-- What the tick `vs` adds to the log. -/
def World.news (w : World F) (vs : List (Visit F)) : List (Event ℚ Nat) :=
  (w.onTimeOut vs).1.log.drop w.log.length

/-- The callback sits under its `idx` in the slot of its next period. -/
def Placed (w : World F) (idx : Nat) (callback : Callback ℚ F Nat) : Prop :=
  ∃ callback' ∈ entry w.timer (w.timer.inc + callback.sec) idx, callback'.param = callback.param

/-- Every due callback that does not raise is invoked, every due loop timer stays scheduled. -/
def Survives (w : World F) (vs : List (Visit F)) : Prop :=
  ∀ v ∈ vs, ∀ callback ∈ entry (due w.timer) (due w.timer).inc v.idx,
    (v.raises = false → .invoked callback.param v.idx (w.timer.inc + 1) ∈ w.news vs) ∧
    (callback.loop = true → Placed (w.onTimeOut vs).1 v.idx callback)

/-- The callbacks that run: up to the first that raises. -/
def ran : List (Visit F) → List (Visit F)
  | [] => []
  | v :: vs => v :: if v.raises then [] else ran vs

/-- The counter of `register` after the calls. -/
def counter (timer_idx : Nat) : List (Call F) → Nat
  | [] => timer_idx
  | .register sec _ _ _ :: cs => counter (if 0 < sec then nextIdx timer_idx else timer_idx) cs
  | .unregister _ :: cs => counter timer_idx cs

/-- The `idx`s that the calls are given by `register`, each with its delay. -/
def handed (timer_idx : Nat) : List (Call F) → List (ℚ × Nat)
  | [] => []
  | .register sec _ _ _ :: cs =>
    if 0 < sec then (sec, nextIdx timer_idx) :: handed (nextIdx timer_idx) cs
    else handed timer_idx cs
  | .unregister _ :: cs => handed timer_idx cs

/-- From the first callback that raises on, all raise and are to run once. -/
def LateRaises (t : State ℚ Nat ℚ F Nat) (vs : List (Visit F)) : Prop :=
  ∀ vs₁ v vs₂, vs = vs₁ ++ v :: vs₂ → v.raises = true → ∀ u ∈ v :: vs₂, u.raises = true ∧
    ∀ callback ∈ entry t t.inc u.idx, callback.loop = false

/-- No callback that runs after a loop timer's is given that timer's `idx` for its delay. -/
def Spared (t : State ℚ Nat ℚ F Nat) (vs : List (Visit F)) : Prop :=
  ∀ vs₁ v vs₂, ran vs = vs₁ ++ v :: vs₂ → ∀ callback ∈ entry t t.inc v.idx,
    callback.loop = true → (callback.sec, v.idx) ∉
      handed (counter t.timer_idx ((vs₁ ++ [v]).flatMap Visit.calls)) (vs₂.flatMap Visit.calls)

/-! ## One place at most -/

/-- In a slot of a later tick, or to come in this one. -/
def Live (w : World F) (todo : List Nat) (sec : ℚ) (idx : Nat) (callback : Callback ℚ F Nat) : Prop :=
  entry w.timer sec idx = some callback ∧
    ((w.timer.inc : ℚ) < sec ∨ sec = w.timer.inc ∧ idx ∈ todo)

/-- What a call leaves of the entries: all but the one that `register` writes. -/
theorem call_entry (w : World F) (c : Call F) :
    (w.call c).timer.inc = w.timer.inc ∧ w.tags ≤ (w.call c).tags ∧
      ((∀ s i, entry (w.call c).timer s i = entry w.timer s i) ∨
        ∃ sec f loop now, c = .register sec f loop now ∧ 0 < sec ∧ (w.call c).tags = w.tags + 1 ∧
          ∀ s i, entry (w.call c).timer s i =
            if s = w.timer.inc + sec ∧ i = nextIdx w.timer.timer_idx
            then some ⟨f, w.tags, sec, loop, now⟩ else entry w.timer s i) := by
  cases c with
  | register sec f loop now =>
    by_cases hp : 0 < sec
    · obtain ⟨t', e, hi, -, -, -, he⟩ := register_of_pos w.timer hp w.tags f loop now
      have e' : w.call (.register sec f loop now) = ⟨t', w.tags + 1, w.log ++
          [.registered w.tags (nextIdx w.timer.timer_idx) w.timer.inc sec loop]⟩ := by
        simp only [World.call, e]
      rw [e']
      exact ⟨hi, Nat.le_succ _, .inr ⟨sec, f, loop, now, rfl, hp, rfl, he⟩⟩
    · have e' : w.call (.register sec f loop now) = w := by
        simp only [World.call, register_of_nonpos w.timer hp]
      rw [e']
      exact ⟨rfl, le_rfl, .inl fun _ _ => rfl⟩
  | unregister idx =>
    cases idx with
    | none => exact ⟨rfl, le_rfl, .inl fun _ _ => rfl⟩
    | some idx => exact ⟨by simp [World.call], le_rfl, .inl fun s i => by simp [World.call]⟩

/-- What is live after a call was live before, or is what `register` made. -/
theorem live_call {w : World F} {c : Call F} {todo : List Nat} {s : ℚ} {i : Nat}
    {callback : Callback ℚ F Nat} (h : Live (w.call c) todo s i callback) :
    Live w todo s i callback ∨ ∃ sec f loop now, c = .register sec f loop now ∧
      callback.param = w.tags ∧ s = w.timer.inc + sec ∧ i = nextIdx w.timer.timer_idx := by
  obtain ⟨hi, -, he⟩ := call_entry w c
  obtain ⟨hc, ha⟩ := h
  rw [hi] at ha
  rcases he with he | ⟨sec, f, loop, now, rfl, -, -, he⟩
  · exact .inl ⟨he s i ▸ hc, ha⟩
  · rw [he] at hc
    split at hc
    · rename_i hsi
      cases hc
      exact .inr ⟨sec, f, loop, now, rfl, rfl, hsi⟩
    · exact .inl ⟨hc, ha⟩

structure Single (w : World F) (cur : Option (Nat × Callback ℚ F Nat)) (todo : List Nat) : Prop where
  pos : ∀ sec idx callback, entry w.timer sec idx = some callback → 0 < callback.sec
  tags : ∀ sec idx callback, entry w.timer sec idx = some callback → callback.param < w.tags
  single : ∀ sec sec' idx idx' callback callback', Live w todo sec idx callback →
    Live w todo sec' idx' callback' → callback.param = callback'.param → sec = sec' ∧ idx = idx'
  held : ∀ idx ∈ todo, (entry w.timer w.timer.inc idx).isSome
  nodup : todo.Nodup
  running : ∀ idx callback, cur = some (idx, callback) → 0 < callback.sec ∧
    callback.param < w.tags ∧ idx ∉ todo ∧ ∀ sec idx' callback', Live w todo sec idx' callback' →
      callback'.param ≠ callback.param

theorem Single.call {w : World F} {cur : Option (Nat × Callback ℚ F Nat)} {todo : List Nat}
    (h : Single w cur todo) (c : Call F) : Single (w.call c) cur todo := by
  obtain ⟨hi, hle, he⟩ := call_entry w c
  have hlt : ∀ {s i callback}, Live w todo s i callback → callback.param < w.tags :=
    fun hl => h.tags _ _ _ hl.1
  refine ⟨fun s i callback hc => ?_, fun s i callback hc => ?_,
    fun s s' i i' callback callback' h₁ h₂ hpar => ?_, fun i hm => ?_, h.nodup,
    fun i callback e => ?_⟩
  · rcases he with he | ⟨sec, f, loop, now, -, hp, -, he⟩ <;> rw [he] at hc
    · exact h.pos _ _ _ hc
    · split at hc
      · cases hc; exact hp
      · exact h.pos _ _ _ hc
  · rcases he with he | ⟨sec, f, loop, now, -, -, ht, he⟩ <;> rw [he] at hc
    · exact (h.tags _ _ _ hc).trans_le hle
    · split at hc
      · cases hc; rw [ht]; exact Nat.lt_succ_self _
      · exact (h.tags _ _ _ hc).trans_le hle
  · rcases live_call h₁ with h₁ | ⟨sec, f, loop, now, rfl, ht, rfl, rfl⟩ <;>
      rcases live_call h₂ with h₂ | ⟨sec', f', loop', now', e, ht', rfl, rfl⟩
    · exact h.single _ _ _ _ _ _ h₁ h₂ hpar
    · exact absurd (hlt h₁) (by rw [hpar, ht']; exact Nat.lt_irrefl _)
    · exact absurd (hlt h₂) (by rw [← hpar, ht]; exact Nat.lt_irrefl _)
    · cases e; exact ⟨rfl, rfl⟩
  · obtain ⟨callback, hc⟩ := Option.isSome_iff_exists.mp (h.held i hm)
    rcases he with he | ⟨sec, f, loop, now, -, -, -, he⟩ <;> rw [he, hi]
    · exact h.held i hm
    · split
      · rfl
      · exact h.held i hm
  · obtain ⟨h₁, h₂, h₃, h₄⟩ := h.running _ _ e
    refine ⟨h₁, h₂.trans_le hle, h₃, fun s i' callback' hl hpar => ?_⟩
    rcases live_call hl with hl | ⟨_, _, _, _, -, ht, -⟩
    · exact h₄ _ _ _ hl hpar
    · exact absurd h₂ (by rw [← hpar, ht]; exact Nat.lt_irrefl _)

theorem Single.new (interval : Option Nat) : Single (World.new interval : World F) none [] := by
  refine ⟨?_, ?_, fun s s' i i' callback callback' hl => ?_, by simp, List.nodup_nil,
    fun _ _ => nofun⟩
  · intro s i callback hc; simp [entry, World.new, init] at hc
  · intro s i callback hc; simp [entry, World.new, init] at hc
  · obtain ⟨hc, -⟩ := hl; simp [entry, World.new, init] at hc

theorem Single.start {w : World F} {todo : List Nat} (h : Single w none []) (hnd : todo.Nodup)
    (ht : ∀ i, i ∈ todo ↔ (entry (due w.timer) (due w.timer).inc i).isSome) :
    Single { w with timer := due w.timer } none todo := by
  have hinc : ((due w.timer).inc : ℚ) = w.timer.inc + 1 := by
    rw [due_inc, succ_nat]
    push_cast
    rfl
  have hold : ∀ {s i callback}, Live { w with timer := due w.timer } todo s i callback →
      Live w [] s i callback := fun ⟨he, ha⟩ => ⟨entry_due_subset he, .inl (by
    rcases ha with ha | ⟨ha, -⟩
    · simp only [hinc] at ha; linarith
    · rw [ha, hinc]; linarith)⟩
  exact ⟨fun s i callback hc => h.pos _ _ _ (entry_due_subset hc),
    fun s i callback hc => h.tags _ _ _ (entry_due_subset hc),
    fun s s' i i' callback callback' h₁ h₂ => h.single _ _ _ _ _ _ (hold h₁) (hold h₂),
    fun i hm => (ht i).mp hm, hnd, fun _ _ => nofun⟩

theorem Single.invoke {w : World F} {i : Nat} {todo : List Nat} {callback : Callback ℚ F Nat}
    (h : Single w none (i :: todo)) (he : entry w.timer w.timer.inc i = some callback) :
    Single { w with log := w.log ++ [.invoked callback.param i w.timer.inc] } (some (i, callback))
      todo := by
  obtain ⟨hn, hnd⟩ := List.nodup_cons.mp h.nodup
  have hold : ∀ {s j callback'}, Live { w with log := w.log ++
      [.invoked callback.param i w.timer.inc] } todo s j callback' →
      Live w (i :: todo) s j callback' := fun hl =>
    ⟨hl.1, hl.2.imp_right fun hm => ⟨hm.1, List.mem_cons_of_mem _ hm.2⟩⟩
  refine ⟨h.pos, h.tags, fun s s' j j' callback₁ callback₂ h₁ h₂ =>
    h.single _ _ _ _ _ _ (hold h₁) (hold h₂), fun j hm => h.held j (List.mem_cons_of_mem _ hm),
    hnd, ?_⟩
  rintro _ _ ⟨⟩
  refine ⟨h.pos _ _ _ he, h.tags _ _ _ he, hn, fun s j callback' hl hpar => ?_⟩
  obtain ⟨rfl, rfl⟩ := h.single _ _ _ _ _ _ (hold hl) ⟨he, .inr ⟨rfl, List.mem_cons_self⟩⟩ hpar
  exact hl.2.elim (lt_irrefl _) fun hm => hn hm.2

/-- A loop timer comes to its next place, where no other is with its tag. -/
theorem Single.back {w : World F} {i : Nat} {callback : Callback ℚ F Nat} {todo : List Nat}
    (now : Int) (h : Single w (some (i, callback)) todo) :
    Single { w with timer := reschedule w.timer i callback now } none todo := by
  obtain ⟨hp, ht, hn, hne⟩ := h.running _ _ rfl
  have hold : ∀ {s j callback'}, Live { w with timer := reschedule w.timer i callback now } todo
      s j callback' → Live w todo s j callback' ∨
        s = w.timer.inc + callback.sec ∧ j = i ∧ callback'.param = callback.param := by
    rintro s j callback' ⟨he, ha⟩
    simp only [entry_reschedule] at he
    split at he
    · rename_i hc
      cases he; exact .inr ⟨hc.2.1, hc.2.2, rfl⟩
    · exact .inl ⟨he, by simpa using ha⟩
  refine ⟨fun s j callback' hc => ?_, fun s j callback' hc => ?_,
    fun s s' j j' callback₁ callback₂ h₁ h₂ hpar => ?_, fun j hm => ?_, h.nodup, fun _ _ => nofun⟩
  · simp only [entry_reschedule] at hc
    split at hc
    · cases hc; exact hp
    · exact h.pos _ _ _ hc
  · simp only [entry_reschedule] at hc
    split at hc
    · cases hc; exact ht
    · exact h.tags _ _ _ hc
  · rcases hold h₁ with k₁ | ⟨rfl, rfl, e₁⟩ <;> rcases hold h₂ with k₂ | ⟨rfl, rfl, e₂⟩
    · exact h.single _ _ _ _ _ _ k₁ k₂ hpar
    · exact absurd (hpar.trans e₂) (hne _ _ _ k₁)
    · exact absurd (hpar.symm.trans e₁) (hne _ _ _ k₂)
    · exact ⟨rfl, rfl⟩
  · simp only [entry_reschedule]
    split
    · rfl
    · simpa using h.held j hm

theorem Single.finish {w : World F} (h : Single w none []) :
    Single { w with timer := clearSlot w.timer } none [] := by
  have hold : ∀ {s i callback}, entry (clearSlot w.timer) s i = some callback →
      entry w.timer s i = some callback := fun hc => by
    rw [entry_clearSlot] at hc
    split at hc
    · cases hc
    · exact hc
  exact ⟨fun s i callback hc => h.pos _ _ _ (hold hc),
    fun s i callback hc => h.tags _ _ _ (hold hc),
    fun s s' i i' callback callback' h₁ h₂ =>
      h.single _ _ _ _ _ _ ⟨hold h₁.1, h₁.2⟩ ⟨hold h₂.1, h₂.2⟩,
    by simp, List.nodup_nil, fun _ _ => nofun⟩

theorem single_kept : Kept (fun w : World F => Single w none []) Single where
  idle c h := h.call c
  start h hnd ht := h.start hnd ht
  invoke h he := h.invoke he
  skip {w i todo} h he := absurd (h.held i List.mem_cons_self) (by simp [he])
  busy c h := h.call c
  back now h := h.back now
  raise {w i callback todo} h := by
    have hold : ∀ {s j callback'}, Live w [] s j callback' → Live w todo s j callback' :=
      fun hl => ⟨hl.1, hl.2.imp_right fun hm => by simp at hm⟩
    exact ⟨h.pos, h.tags, fun s s' j j' callback₁ callback₂ h₁ h₂ =>
      h.single _ _ _ _ _ _ (hold h₁) (hold h₂), by simp, List.nodup_nil, fun _ _ => nofun⟩
  finish h := h.finish
  noSlot h := h

/-! ## What a tick leaves -/

theorem ran_sublist (vs : List (Visit F)) : (ran vs).Sublist vs := by
  induction vs with
  | nil => simp [ran]
  | cons v vs ih =>
    rw [ran]
    split
    · simp
    · exact ih.cons_cons v

/-- What does not run comes after a callback that raises. -/
theorem mem_ran_or {v : Visit F} : ∀ {vs : List (Visit F)}, v ∈ vs → v ∈ ran vs ∨
    ∃ vs₁ r vs₂, vs = vs₁ ++ r :: vs₂ ∧ r.raises = true ∧ v ∈ vs₂
  | u :: vs, h => by
    rw [ran]
    rcases List.mem_cons.mp h with rfl | h
    · exact .inl (by simp)
    cases hr : u.raises with
    | true => exact .inr ⟨[], u, vs, rfl, hr, h⟩
    | false =>
      rcases mem_ran_or h with hm | ⟨vs₁, r, vs₂, rfl, hr', hm⟩
      · exact .inl (by simp [hm])
      · exact .inr ⟨u :: vs₁, r, vs₂, rfl, hr', hm⟩

/-- What runs does not come after a callback that raises. -/
theorem ran_append {vs₁ vs₂ : List (Visit F)} {r : Visit F} (h : r.raises = true) :
    ran (vs₁ ++ r :: vs₂) ⊆ vs₁ ++ [r] := by
  induction vs₁ with
  | nil => simp [ran, h]
  | cons v vs ih =>
    rw [List.cons_append, ran]
    split
    · simp
    · exact List.cons_subset_cons v ih

theorem counter_append (n : Nat) (cs cs' : List (Call F)) :
    counter n (cs ++ cs') = counter (counter n cs) cs' := by
  induction cs generalizing n with
  | nil => rfl
  | cons c cs ih => cases c <;> exact ih _

theorem handed_append (n : Nat) (cs cs' : List (Call F)) :
    handed n (cs ++ cs') = handed n cs ++ handed (counter n cs) cs' := by
  induction cs generalizing n with
  | nil => rfl
  | cons c cs ih =>
    cases c with
    | register sec f loop now =>
      by_cases hp : 0 < sec
      · simp only [List.cons_append, handed, counter, if_pos hp, ih]
      · simp only [List.cons_append, handed, counter, if_neg hp, ih]
    | unregister idx => exact ih n

/-- From `w` to `w'` the calls `cs` were made; under `idx` nothing else was written. -/
structure Left (w w' : World F) (cs : List (Call F)) (idx : Nat) : Prop where
  inc : w'.timer.inc = w.timer.inc
  tags : w.tags ≤ w'.tags
  timer_idx : w'.timer.timer_idx = counter w.timer.timer_idx cs
  entry : ∀ sec, (sec, idx) ∉ handed w.timer.timer_idx cs →
    entry w'.timer (w.timer.inc + sec) idx = entry w.timer (w.timer.inc + sec) idx
  handed : ∀ sec, (sec, idx) ∈ handed w.timer.timer_idx cs →
    ∃ callback ∈ Timer.entry w'.timer (w.timer.inc + sec) idx, w.tags ≤ callback.param

namespace Left

variable {w w' w'' : World F} {cs cs' : List (Call F)} {idx : Nat}

theorem refl (w : World F) (idx : Nat) : Left w w [] idx :=
  ⟨rfl, le_rfl, rfl, fun _ _ => rfl, fun _ h => by simp [Timer.handed] at h⟩

theorem trans (h : Left w w' cs idx) (h' : Left w' w'' cs' idx) : Left w w'' (cs ++ cs') idx where
  inc := h'.inc.trans h.inc
  tags := h.tags.trans h'.tags
  timer_idx := by rw [h'.timer_idx, h.timer_idx, counter_append]
  entry sec hn := by
    rw [handed_append, ← h.timer_idx, List.mem_append, not_or] at hn
    have he := h'.entry sec hn.2
    rw [h.inc] at he
    exact he.trans (h.entry sec hn.1)
  handed sec hm := by
    have he := h'.entry sec
    have hh := h'.handed sec
    rw [h.inc] at he hh
    rw [handed_append, ← h.timer_idx, List.mem_append] at hm
    by_cases hm' : (sec, idx) ∈ Timer.handed w'.timer.timer_idx cs'
    · obtain ⟨callback, hc, hle⟩ := hh hm'
      exact ⟨callback, hc, h.tags.trans hle⟩
    · rw [he hm']
      exact h.handed sec (hm.resolve_right hm')

theorem call (w : World F) (c : Call F) (idx : Nat) : Left w (w.call c) [c] idx := by
  cases c with
  | register sec f loop now =>
    by_cases hp : 0 < sec
    · obtain ⟨t', e, hi, ht, -, -, he⟩ := register_of_pos w.timer hp w.tags f loop now
      simp only [World.call, e]
      refine ⟨hi, Nat.le_succ _, by simp [counter, hp, ht], fun s hn => ?_, fun s hm => ?_⟩
      · simp only [Timer.handed, if_pos hp, List.mem_singleton, Prod.mk.injEq, not_and] at hn
        rw [he, if_neg]
        exact fun h => hn (add_left_cancel h.1) h.2
      · simp only [Timer.handed, if_pos hp, List.mem_singleton, Prod.mk.injEq] at hm
        obtain ⟨rfl, rfl⟩ := hm
        exact ⟨⟨f, w.tags, s, loop, now⟩, by simp [he], le_rfl⟩
    · have e : w.call (.register sec f loop now) = w := by
        simp only [World.call, register_of_nonpos w.timer hp]
      rw [e]
      exact ⟨rfl, le_rfl, by simp [counter, hp], fun _ _ => rfl, by simp [Timer.handed, hp]⟩
  | unregister idx' =>
    cases idx' with
    | none => exact ⟨rfl, le_rfl, rfl, fun _ _ => rfl, by simp [Timer.handed]⟩
    | some idx' =>
      exact ⟨by simp [World.call], le_rfl, by simp [World.call, counter], by simp [World.call],
        by simp [Timer.handed]⟩

theorem calls (cs : List (Call F)) (idx : Nat) : ∀ w : World F, Left w (cs.foldl World.call w) cs idx := by
  induction cs with
  | nil => exact fun w => refl w idx
  | cons c cs ih => exact fun w => (call w c idx).trans (ih _)

theorem invoke (w : World F) (callback : Callback ℚ F Nat) (v : Visit F) (idx : Nat) :
    Left w (w.invoke callback v) v.calls idx :=
  have h := calls v.calls idx
    { w with log := w.log ++ [.invoked callback.param v.idx w.timer.inc] }
  ⟨h.inc, h.tags, h.timer_idx, h.entry, h.handed⟩

theorem reschedule (w : World F) {i : Nat} (callback : Callback ℚ F Nat) (now : Int) (h : i ≠ idx) :
    Left w { w with timer := reschedule w.timer i callback now } [] idx :=
  ⟨by simp, le_rfl, by simp [counter], fun sec _ => by simp [entry_reschedule, h.symm],
    by simp [Timer.handed]⟩

end Left

/-- The worlds of a tick's second loop, after one more callback has returned. -/
def World.returned (w : World F) (callback : Callback ℚ F Nat) (v : Visit F) : World F :=
  { w.invoke callback v with
    timer := reschedule (w.invoke callback v).timer v.idx callback v.now }

theorem visits_cons {w : World F} {v : Visit F} {vs : List (Visit F)} {callback : Callback ℚ F Nat}
    (h : entry w.timer w.timer.inc v.idx = some callback) :
    w.visits (v :: vs) =
      if v.raises then (w.invoke callback v, false) else (w.returned callback v).visits vs := by
  rw [World.visits, h]; rfl

theorem zero_not_handed (n idx : Nat) (cs : List (Call F)) : (0, idx) ∉ handed n cs := by
  induction cs generalizing n with
  | nil => simp [handed]
  | cons c cs ih =>
    cases c with
    | register sec f loop now =>
      by_cases hp : 0 < sec
      · simp only [handed, if_pos hp, List.mem_cons, Prod.mk.injEq, not_or]
        exact ⟨fun h => hp.ne h.1, ih _⟩
      · simpa only [handed, if_neg hp] using ih n
    | unregister idx' => exact ih n

/-- A callback that has returned has left the slot of its tick as it was. -/
theorem entry_returned {w : World F} {callback : Callback ℚ F Nat} (hp : 0 < callback.sec)
    (v : Visit F) (i : Nat) :
    entry (w.returned callback v).timer w.timer.inc i = entry w.timer w.timer.inc i := by
  have h := Left.invoke w callback v i
  have he := h.entry 0 (zero_not_handed _ _ _)
  rw [add_zero] at he
  rw [World.returned, entry_reschedule, if_neg, he]
  rintro ⟨-, hs, -⟩
  rw [h.inc, plus_rat] at hs
  linarith

theorem returned_inc (w : World F) (callback : Callback ℚ F Nat) (v : Visit F) :
    (w.returned callback v).timer.inc = w.timer.inc :=
  (reschedule_inc ..).trans (Left.invoke w callback v v.idx).inc

theorem Single.returned {w : World F} {v : Visit F} {todo : List Nat} {callback : Callback ℚ F Nat}
    (h : Single w none (v.idx :: todo)) (he : entry w.timer w.timer.inc v.idx = some callback) :
    Single (w.returned callback v) none todo :=
  single_kept.back v.now (single_kept.calls v.calls (single_kept.invoke h he))

/-- Under an `idx` whose callback has not returned, a tick writes what `register` does. -/
theorem visits_left (idx : Nat) : ∀ (vs : List (Visit F)) {w : World F},
    Single w none (vs.map Visit.idx) → (∀ v ∈ ran vs, v.raises = false → v.idx ≠ idx) →
    Left w (w.visits vs).1 ((ran vs).flatMap Visit.calls) idx
  | [], w, _, _ => Left.refl w idx
  | v :: vs, w, h, hn => by
    obtain ⟨callback, hc⟩ := Option.isSome_iff_exists.mp (h.held v.idx (by simp))
    rw [visits_cons hc]
    have hi := Left.invoke w callback v idx
    cases hr : v.raises with
    | true => simpa [ran, hr] using hi
    | false =>
      have hne : v.idx ≠ idx := hn v (by simp [ran]) hr
      have hb : Left w (w.returned callback v) v.calls idx :=
        List.append_nil v.calls ▸ hi.trans (Left.reschedule _ callback v.now hne)
      have hv := hb.trans (visits_left idx vs (h.returned hc)
        fun u hu => hn u (by simp [ran, hr, hu]))
      simpa [ran, hr] using hv

/-- The log of the calls of a callback: none of them invokes a callback. -/
theorem calls_log (cs : List (Call F)) : ∀ w : World F, ∃ es,
    (cs.foldl World.call w).log = w.log ++ es ∧ ∀ tag idx inc, .invoked tag idx inc ∉ es := by
  induction cs with
  | nil => exact fun w => ⟨[], by simp, by simp⟩
  | cons c cs ih =>
    intro w
    obtain ⟨es, he, hn⟩ := ih (w.call c)
    obtain ⟨es', he', hn'⟩ : ∃ es, (w.call c).log = w.log ++ es ∧
        ∀ tag idx inc, .invoked tag idx inc ∉ es := by
      cases c with
      | register sec f loop now =>
        simp only [World.call]
        split
        · exact ⟨[], by simp, by simp⟩
        · exact ⟨_, rfl, by simp⟩
      | unregister idx =>
        cases idx with
        | none => exact ⟨[], by simp [World.call], by simp⟩
        | some idx => exact ⟨_, rfl, by simp⟩
    refine ⟨es' ++ es, by rw [List.foldl_cons, he, he', List.append_assoc], fun tag idx inc hm => ?_⟩
    exact (List.mem_append.mp hm).elim (hn' _ _ _) (hn _ _ _)

/-- The log of the second loop: the callbacks that run are invoked, and no other. -/
theorem visits_log : ∀ (vs : List (Visit F)) {w : World F}, Single w none (vs.map Visit.idx) →
    ∃ es, (w.visits vs).1.log = w.log ++ es ∧ ∀ tag idx inc, .invoked tag idx inc ∈ es ↔
      inc = w.timer.inc ∧ ∃ v ∈ ran vs, v.idx = idx ∧
        ∃ callback ∈ entry w.timer w.timer.inc idx, callback.param = tag
  | [], _, _ => ⟨[], by simp [World.visits], by simp [ran]⟩
  | v :: vs, w, h => by
    obtain ⟨callback, hc⟩ := Option.isSome_iff_exists.mp (h.held v.idx (by simp))
    obtain ⟨es, he, hn⟩ := calls_log v.calls
      { w with log := w.log ++ [.invoked callback.param v.idx w.timer.inc] }
    have hlog : (w.invoke callback v).log =
        w.log ++ .invoked callback.param v.idx w.timer.inc :: es := by
      rw [World.invoke, he, List.append_assoc]; rfl
    have hhead : ∀ tag idx inc, (.invoked tag idx inc : Event ℚ Nat) = .invoked callback.param v.idx w.timer.inc ↔
        inc = w.timer.inc ∧ v.idx = idx ∧
          ∃ callback ∈ entry w.timer w.timer.inc idx, callback.param = tag := by
      intro tag idx inc
      simp only [Event.invoked.injEq]
      constructor
      · rintro ⟨rfl, rfl, rfl⟩
        exact ⟨rfl, rfl, callback, hc, rfl⟩
      · rintro ⟨rfl, rfl, callback', hc', rfl⟩
        cases hc.symm.trans hc'
        exact ⟨rfl, rfl, rfl⟩
    rw [visits_cons hc]
    cases hr : v.raises with
    | true =>
      refine ⟨_, hlog, fun tag idx inc => ?_⟩
      simp only [List.mem_cons, hn, or_false, hhead, ran, hr, if_true, List.not_mem_nil,
        exists_eq_left]
    | false =>
      obtain ⟨es', he', hn'⟩ := visits_log vs (h.returned hc)
      refine ⟨.invoked callback.param v.idx w.timer.inc :: (es ++ es'), ?_, fun tag idx inc => ?_⟩
      · simp only [Bool.false_eq_true, if_false, he']
        rw [World.returned, hlog, List.append_assoc]; rfl
      · rw [List.mem_cons, List.mem_append, hhead, hn', returned_inc,
          entry_returned (h.pos _ _ _ hc)]
        simp only [hn, false_or, ran, hr, Bool.false_eq_true, if_false, List.mem_cons]
        constructor
        · rintro (⟨rfl, rfl, ht⟩ | ⟨rfl, u, hu, rfl, ht⟩)
          · exact ⟨rfl, v, .inl rfl, rfl, ht⟩
          · exact ⟨rfl, u, .inr hu, rfl, ht⟩
        · rintro ⟨rfl, u, rfl | hu, rfl, ht⟩
          · exact .inl ⟨rfl, rfl, ht⟩
          · exact .inr ⟨rfl, u, hu, rfl, ht⟩

/-! ## Which loop timers stay -/

/-- A loop timer whose callback has not returned is in no later slot. -/
theorem not_placed {w : World F} {vs : List (Visit F)} {idx : Nat} {callback : Callback ℚ F Nat}
    (h : Single w none (vs.map Visit.idx)) (hm : idx ∈ vs.map Visit.idx)
    (hc : entry w.timer w.timer.inc idx = some callback)
    (hn : ∀ v ∈ ran vs, v.raises = false → v.idx ≠ idx) : ¬ Placed (w.visits vs).1 idx callback := by
  rintro ⟨callback', hc', hpar⟩
  have hl := visits_left idx vs h hn
  rw [hl.inc] at hc'
  by_cases hh : (callback.sec, idx) ∈ handed w.timer.timer_idx ((ran vs).flatMap Visit.calls)
  · obtain ⟨callback'', hc'', hle⟩ := hl.handed _ hh
    cases Option.mem_unique hc' hc''
    exact absurd (h.tags _ _ _ hc) (by omega)
  · have hp := h.pos _ _ _ hc
    rw [hl.entry _ hh] at hc'
    have hs := (h.single _ _ _ _ _ _ ⟨hc', .inl (by linarith)⟩ ⟨hc, .inr ⟨rfl, hm⟩⟩ hpar).1
    linarith

/-- A loop timer whose callback has returned is placed, until `register` overwrites it. -/
theorem placed_returned {w : World F} {v : Visit F} {vs : List (Visit F)}
    {callback : Callback ℚ F Nat} (h : Single w none (v.idx :: vs.map Visit.idx))
    (hc : entry w.timer w.timer.inc v.idx = some callback) (hl : callback.loop = true) :
    Placed ((w.returned callback v).visits vs).1 v.idx callback ↔
      (callback.sec, v.idx) ∉
        handed (counter w.timer.timer_idx v.calls) ((ran vs).flatMap Visit.calls) := by
  have hi := Left.invoke w callback v v.idx
  have he : entry (w.returned callback v).timer (w.timer.inc + callback.sec) v.idx =
      some { callback with start_time := v.now } := by
    rw [World.returned, entry_reschedule, if_pos ⟨hl, by rw [hi.inc, plus_rat], rfl⟩]
  have hran : ∀ u ∈ ran vs, u.raises = false → u.idx ≠ v.idx := fun u hu _ e =>
    (List.nodup_cons.mp h.nodup).1 (e ▸ List.mem_map_of_mem ((ran_sublist vs).subset hu))
  have hleft := visits_left v.idx vs (h.returned hc) hran
  have hidx : (w.returned callback v).timer.timer_idx = counter w.timer.timer_idx v.calls :=
    (reschedule_timer_idx ..).trans hi.timer_idx
  have hent := hleft.entry callback.sec
  have hhan := hleft.handed callback.sec
  rw [hidx, returned_inc] at hent hhan
  rw [Placed, hleft.inc, returned_inc]
  constructor
  · rintro ⟨callback', hc', hpar⟩ hm
    obtain ⟨callback'', hc'', hle⟩ := hhan hm
    cases Option.mem_unique hc' hc''
    have ht : w.tags ≤ (w.returned callback v).tags := hi.tags
    exact absurd (h.tags _ _ _ hc) (by omega)
  · intro hn
    exact ⟨_, (hent hn).trans he, rfl⟩

/-- The loop timers of a tick that stay scheduled: those whose callback returns, and whose `idx`
is not handed out after that for the same delay. -/
theorem placed_iff : ∀ (vs : List (Visit F)) {w : World F} {v : Visit F} {callback : Callback ℚ F Nat},
    Single w none (vs.map Visit.idx) → v ∈ vs →
    entry w.timer w.timer.inc v.idx = some callback → callback.loop = true →
    (Placed (w.visits vs).1 v.idx callback ↔ v.raises = false ∧ ∃ vs₁ vs₂,
      ran vs = vs₁ ++ v :: vs₂ ∧ (callback.sec, v.idx) ∉
        handed (counter w.timer.timer_idx ((vs₁ ++ [v]).flatMap Visit.calls))
          (vs₂.flatMap Visit.calls))
  | u :: vs, w, v, callback, h, hv, hc, hl => by
    have hnd : (u.idx :: vs.map Visit.idx).Nodup := h.nodup
    obtain ⟨hnm, -⟩ := List.nodup_cons.mp hnd
    cases hr : u.raises with
    | true =>
      have hran : ran (u :: vs) = [u] := by simp [ran, hr]
      have hn : ¬ Placed (w.visits (u :: vs)).1 v.idx callback :=
        not_placed h (List.mem_map_of_mem hv) hc (by simp [hran, hr])
      refine iff_of_false hn ?_
      rintro ⟨hvr, vs₁, vs₂, e, -⟩
      have hm : v ∈ ran (u :: vs) := by rw [e]; simp
      rw [hran, List.mem_singleton] at hm
      rw [hm, hr] at hvr; cases hvr
    | false =>
      obtain ⟨callback', hc'⟩ := Option.isSome_iff_exists.mp (h.held u.idx (by simp))
      have hran : ran (u :: vs) = u :: ran vs := by simp [ran, hr]
      rw [visits_cons hc', hran]
      simp only [hr, Bool.false_eq_true, if_false]
      rcases List.mem_cons.mp hv with rfl | hv
      · cases hc.symm.trans hc'
        rw [placed_returned h hc hl]
        constructor
        · exact fun hn => ⟨hr, [], ran vs, rfl, by simpa using hn⟩
        · rintro ⟨-, vs₁, vs₂, e, hn⟩
          cases vs₁ with
          | nil => cases e; simpa using hn
          | cons u' vs₁ =>
            have hm : v ∈ ran vs := by rw [(List.cons.inj e).2]; simp
            exact absurd (List.mem_map_of_mem ((ran_sublist vs).subset hm)) hnm
      · have hc₂ : entry (w.returned callback' u).timer (w.returned callback' u).timer.inc v.idx =
            some callback := by
          rw [returned_inc, entry_returned (h.pos _ _ _ hc')]; exact hc
        have hidx : (w.returned callback' u).timer.timer_idx = counter w.timer.timer_idx u.calls :=
          (reschedule_timer_idx ..).trans (Left.invoke w callback' u u.idx).timer_idx
        rw [placed_iff vs (h.returned hc') hv hc₂ hl, hidx]
        refine and_congr_right fun _ => ⟨?_, ?_⟩
        · rintro ⟨vs₁, vs₂, e, hn⟩
          refine ⟨u :: vs₁, vs₂, by rw [e]; rfl, ?_⟩
          rwa [List.cons_append, List.flatMap_cons, counter_append]
        · rintro ⟨vs₁, vs₂, e, hn⟩
          cases vs₁ with
          | nil =>
            obtain ⟨rfl, -⟩ := List.cons.inj e
            exact absurd (List.mem_map_of_mem hv) hnm
          | cons u' vs₁ =>
            obtain ⟨rfl, e'⟩ := List.cons.inj e
            refine ⟨vs₁, vs₂, e', ?_⟩
            rwa [List.cons_append, List.flatMap_cons, counter_append] at hn

/-! ## The whole tick -/

theorem onTimeOut_placed {w : World F} {vs : List (Visit F)} (ht : Traverses w.timer vs) {idx : Nat}
    {callback : Callback ℚ F Nat} (hp : 0 < callback.sec) :
    Placed (w.onTimeOut vs).1 idx callback ↔
      Placed (World.visits { w with timer := due w.timer } vs).1 idx callback := by
  rcases onTimeOut_cases ht with ⟨e, -⟩ | ⟨e, -⟩
  · rw [e]
  · rw [e, Placed, Placed, entry_clearSlot, if_neg]
    · rfl
    · intro h
      have : (clearSlot (World.visits { w with timer := due w.timer } vs).1.timer).inc =
          (World.visits { w with timer := due w.timer } vs).1.timer.inc := rfl
      have hkey (inc : Nat) : Numbers.key ℚ inc = (inc : ℚ) := rfl
      rw [this, hkey] at h
      linarith

theorem onTimeOut_news {w : World F} {vs : List (Visit F)} (ht : Traverses w.timer vs)
    (h : Single { w with timer := due w.timer } none (vs.map Visit.idx)) (tag idx inc : Nat) :
    .invoked tag idx inc ∈ w.news vs ↔ inc = (due w.timer).inc ∧ ∃ v ∈ ran vs, v.idx = idx ∧
      ∃ callback ∈ entry (due w.timer) (due w.timer).inc idx, callback.param = tag := by
  obtain ⟨es, he, hn⟩ := visits_log vs h
  have hlog : (w.onTimeOut vs).1.log = w.log ++ es := by
    rcases onTimeOut_cases ht with ⟨e, -⟩ | ⟨e, -⟩ <;> rw [e] <;> exact he
  rw [World.news, hlog, List.drop_left]
  exact hn tag idx inc

/-- Behind a visit that raises there are only visits that raise. -/
theorem Survives.raises {w : World F} {vs₁ vs₂ : List (Visit F)} {v : Visit F}
    (hs : Survives w (vs₁ ++ v :: vs₂)) (ht : Traverses w.timer (vs₁ ++ v :: vs₂))
    (hw : Single { w with timer := due w.timer } none ((vs₁ ++ v :: vs₂).map Visit.idx))
    (hv : v.raises = true) : ∀ u ∈ v :: vs₂, u.raises = true := by
  intro u hu
  rcases List.mem_cons.mp hu with rfl | hu₂
  · exact hv
  by_contra hr
  have hm : u ∈ vs₁ ++ v :: vs₂ := by simp [hu₂]
  obtain ⟨callback, hc⟩ := Option.isSome_iff_exists.mp (hw.held _ (List.mem_map_of_mem hm))
  obtain ⟨-, u', hu', e, -⟩ := (onTimeOut_news ht hw _ _ _).mp
    ((hs u hm callback hc).1 (by simpa using hr))
  obtain rfl := List.inj_on_of_nodup_map ht.1 ((ran_sublist _).subset hu') hm e
  have hu₁ : u' ∈ vs₁ ++ [v] := ran_append hv hu'
  have hnd : (vs₁ ++ v :: vs₂).Nodup := List.Nodup.of_map _ ht.1
  rw [← List.singleton_append, ← List.append_assoc] at hnd
  exact List.disjoint_of_nodup_append hnd hu₁ hu₂

/-- A loop timer and one that runs once, due in the same tick. -/
def raiseStart : World Unit :=
  ((World.new none).exec (.call (.register 1 () true 0))).exec (.call (.register 1 () false 0))

theorem raiseStart_reach : Machine.Reach World.exec Legal (World.new none) raiseStart :=
  .step _ (.step _ .init trivial) trivial

/-- Nothing else is due. -/
theorem raiseStart_due (idx : Nat) :
    (entry (due raiseStart.timer) (due raiseStart.timer).inc idx).isSome ↔ idx = 1 ∨ idx = 2 := by
  match idx with
  | 0 | 1 | 2 => decide +kernel
  | n + 3 =>
    refine iff_of_false (fun h => ?_) (by omega)
    obtain ⟨callback, hc⟩ := Option.isSome_iff_exists.mp h
    have hc := entry_due_subset hc
    simp [raiseStart, World.exec, World.call, World.new, init, register, entry, place, nextIdx,
      Numbers.Pos] at hc

end SkynetHotfix.Timer
