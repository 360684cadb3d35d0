import SkynetHotfix.Timer.Found
import SkynetHotfix.Timer.Reuse

/-!
# Timers of whole keys

A tick looks up and clears the slot whose key is exactly `inc`. In runs whose keys are whole numbers
above `inc` and whose ticks start one after the other no slot is left behind (`Slots`), and every due
time of a timer that is not unregistered has been served, or the timer is at a place of that time, or
its callback runs (`Served`). `in_time` is what comes of it; a timer of half a tick is never run
(`half_tick_late`), no more than one whose sum with `inc` wraps.
-/

namespace SkynetHotfix.Timer.Overlap

open Function (update)
open Lua (Number NumKey intKey)

variable {F : Type} {w w' : World Number Int64 NumKey F} {op : Op Number F}

/-- The key is a whole number above `inc`, or infinite. -/
def Ahead (inc : Int64) (s : NumKey) : Prop := intKey inc < s ∧ (s.untopD 0).den = 1

instance (inc : Int64) (s : NumKey) : Decidable (Ahead inc s) :=
  inferInstanceAs (Decidable (_ < _ ∧ _ = _))

/-- The keys are whole numbers above `inc`, a tick starts when no other is under way, and no callback
raises. -/
def World.Whole (w : World Number Int64 NumKey F) : Op Number F → Prop
  | .register sec _ _ _ => sec.Pos → Ahead w.timer.inc (sec.add w.timer.inc).key
  | .start _ => w.ticks = []
  | .returns n _ => ∀ current ∈ w.ticks[n]?.bind Tick.current, current.2.loop = true →
      Ahead w.timer.inc (current.2.sec.add w.timer.inc).key
  | .raises _ => False
  | _ => True

instance (w : World Number Int64 NumKey F) : ∀ op, Decidable (w.Whole op)
  | .register sec _ _ _ => inferInstanceAs (Decidable (sec.Pos → Ahead _ _))
  | .start _ => decidable_of_iff (w.ticks.isEmpty = true) List.isEmpty_iff
  | .returns .. => inferInstanceAs (Decidable (∀ current ∈ _, _ → Ahead _ _))
  | .raises _ => .isFalse id
  | .unregister _ | .invoke _ | .finish _ => .isTrue trivial

/-- What `register` is called with, and what it hands out. -/
structure Registration where
  tag : Nat
  idx : Nat
  inc : Int64
  sec : Number
  loop : Bool

def Registration.event (r : Registration) : Event Number Int64 :=
  .registered r.tag r.idx r.inc r.sec r.loop

/-- The times at which a timer is due: `sec` ticks after its registration, and a loop timer as many
after each tick in which it was invoked. -/
def Registration.DueAt (r : Registration) (log : List (Event Number Int64)) (d : NumKey) : Prop :=
  d = (r.sec.add r.inc).key ∨
    r.loop = true ∧ ∃ inc, .invoked r.tag r.idx inc ∈ log ∧ d = (r.sec.add inc).key

/-- A due time has its invocation in the first tick that reaches or passes it. -/
def Registration.InvokedFor (r : Registration) (log : List (Event Number Int64)) (d : NumKey) : Prop :=
  ∃ inc, .invoked r.tag r.idx inc ∈ log ∧ d ≤ intKey inc ∧ intKey inc < d + 1

/-- Every timer that is not unregistered has been invoked for its due time by the first tick at
which `inc` reached or passed it, and no slot at or below `inc` is left. -/
structure InTime (w : World Number Int64 NumKey F) : Prop where
  invoked : ∀ r : Registration, r.event ∈ w.log → NeverUnregistered r.tag r.idx w.log →
    ∀ d, r.DueAt w.log d → d ≤ intKey w.timer.inc → r.InvokedFor w.log d
  slots : ∀ s, w.timer.callbacks s ≠ none → intKey w.timer.inc < s

/-! ## The keys -/

/-- A whole key above `inc` is not below the next one. -/
theorem Ahead.succ_le {inc : Int64} {s : NumKey} (h : Ahead inc s) (hb : inc < Int64.maxValue) :
    intKey (inc + 1) ≤ s := by
  obtain ⟨hlt, hden⟩ := h
  induction s using WithTop.recTopCoe with
  | top => exact le_top
  | coe q =>
    have hq := (Rat.den_eq_one_iff q).mp hden
    rw [WithTop.coe_lt_coe, ← hq, Int.cast_lt] at hlt
    rw [WithTop.coe_le_coe, ← hq, Int.cast_le, toInt_succ hb]
    exact hlt

/-- The tick under way is of now, and all keys are whole and none is behind `inc`. -/
structure Slots (w : World Number Int64 NumKey F) : Prop where
  one : w.ticks = [] ∨ ∃ tick, w.ticks = [tick] ∧ tick.inc = w.timer.inc
  whole : ∀ s, w.timer.callbacks s ≠ none → Ahead w.timer.inc s ∨ s = intKey w.timer.inc
  later : w.ticks = [] → ∀ s, w.timer.callbacks s ≠ none → intKey w.timer.inc < s

theorem callbacks_place {callbacks : NumKey → Option (Slot Number F Nat)} {sec s : NumKey} {idx : Nat}
    {callback : Callback Number F Nat} (h : place callbacks sec idx callback s ≠ none) :
    s = sec ∨ callbacks s ≠ none := by
  by_cases hs : s = sec
  · exact .inl hs
  · rw [place, Function.update_of_ne hs] at h
    exact .inr h

theorem callbacks_due {t : State Number Int64 NumKey F Nat} {s : NumKey} :
    (due t).callbacks s ≠ none ↔ t.callbacks s ≠ none := by
  have hkey : Numbers.key Number (Numbers.succ Number t.inc) = intKey (t.inc + 1) := rfl
  unfold due
  split
  · rfl
  · rename_i slot hslot
    have hslot : t.callbacks (intKey (t.inc + 1)) = some slot := hslot
    by_cases hs : s = intKey (t.inc + 1)
    · subst hs
      simp [purgeSlot, advance, hkey, hslot]
    · simp [purgeSlot, advance, hkey, hs]

theorem Slots.tick (h : Slots w) {n : Nat} {tick : Tick Number Int64 F}
    (hn : w.ticks[n]? = some tick) : n = 0 ∧ w.ticks = [tick] ∧ tick.inc = w.timer.inc := by
  rcases h.one with h | ⟨tick', h, hinc⟩
  · rw [h] at hn
    cases hn
  · rw [h] at hn
    cases n with
    | zero =>
      obtain rfl := Option.some.inj hn
      exact ⟨rfl, h, hinc⟩
    | succ n => cases hn

theorem slots_new (interval : Option Nat) : Slots (.new interval : World Number Int64 NumKey F) where
  one := .inl rfl
  whole := by simp [World.new, init]
  later := by simp [World.new, init]

/-- A key that is made is ahead. -/
theorem Slots.place (h : Slots w) {s : NumKey} (hs : Ahead w.timer.inc s) {idx : Nat}
    {callback : Callback Number F Nat} {t : State Number Int64 NumKey F Nat}
    (ht : t.callbacks = Timer.place w.timer.callbacks s idx callback) (hinc : t.inc = w.timer.inc)
    {ticks : List (Tick Number Int64 F)} (hticks : ticks.map Tick.inc = w.ticks.map Tick.inc)
    {tags : Nat} {log : List (Event Number Int64)} : Slots ⟨t, ticks, tags, log⟩ := by
  have hnil : ticks = [] ↔ w.ticks = [] := by
    rw [← List.map_eq_nil_iff (f := Tick.inc), hticks, List.map_eq_nil_iff]
  refine ⟨?_, fun s' hs' => ?_, fun he s' hs' => ?_⟩
  · rcases h.one with hone | ⟨tick, hone, htick⟩
    · exact .inl (hnil.mpr hone)
    · rw [hone, List.map_singleton, List.map_eq_singleton_iff] at hticks
      obtain ⟨tick', rfl, he⟩ := hticks
      exact .inr ⟨tick', rfl, he.trans (htick.trans hinc.symm)⟩
  · simp only [ht, hinc] at hs' ⊢
    rcases callbacks_place hs' with rfl | hs'
    · exact .inl hs
    · exact h.whole s' hs'
  · simp only [ht, hinc] at hs' ⊢
    rcases callbacks_place hs' with rfl | hs'
    · exact hs.1
    · exact h.later (hnil.mp he) s' hs'

theorem Slots.of_due (h : Slots w) (hb : w.timer.inc < Int64.maxValue) (hone : w.ticks = [])
    {s : NumKey} (hs : (due w.timer).callbacks s ≠ none) :
    Ahead (w.timer.inc + 1) s ∨ s = intKey (w.timer.inc + 1) := by
  have hs := callbacks_due.mp hs
  rcases h.whole s hs with ha | rfl
  · refine (ha.succ_le hb).lt_or_eq.imp (fun hlt => ⟨hlt, ha.2⟩) Eq.symm
  · exact absurd (h.later hone _ hs) (lt_irrefl _)

theorem Slots.does (h : Slots w) (hdoes : Does w op w') (hb : w.Below op) (hop : w.Whole op) :
    Slots w' := by
  cases hdoes with
  | nothing => exact h
  | @register sec f loop now t hsec ht =>
    have hreg : t.callbacks = Timer.place w.timer.callbacks (sec.add w.timer.inc).key
        (nextIdx w.timer.timer_idx) ⟨f, w.tags, sec, loop, now⟩ ∧ t.inc = w.timer.inc := by
      simp only [register, if_pos (show Numbers.Pos sec from hsec), Option.some.injEq,
        Prod.mk.injEq] at ht
      obtain ⟨rfl, -⟩ := ht
      exact ⟨rfl, rfl⟩
    exact h.place (hop hsec) hreg.1 hreg.2 rfl
  | unregister idx =>
    refine ⟨?_, fun s hs => ?_, fun hone s hs => ?_⟩
    · simpa using h.one
    · simpa using h.whole s (by simpa using hs)
    · simpa using h.later hone s (by simpa using hs)
  | idle hslot =>
    have hinc : (due w.timer).inc = w.timer.inc + 1 := due_inc _
    have hahead : ∀ s, (due w.timer).callbacks s ≠ none → Ahead (w.timer.inc + 1) s := by
      intro s hs
      refine (h.of_due hb hop hs).resolve_right fun he => hs ?_
      rw [he, ← hinc]
      exact hslot
    refine ⟨.inl hop, fun s hs => ?_, fun _ s hs => ?_⟩
    · simp only [hinc]
      exact .inl (hahead s hs)
    · simp only [hinc]
      exact (hahead s hs).1
  | start hslot =>
    have hinc : (due w.timer).inc = w.timer.inc + 1 := due_inc _
    refine ⟨.inr ⟨_, by rw [show w.ticks = [] from hop]; rfl, rfl⟩, fun s hs => ?_, fun he => ?_⟩
    · simp only [hinc]
      exact h.of_due hb hop hs
    · exact absurd he (List.append_ne_nil_of_right_ne_nil _ (List.cons_ne_nil _ _))
  | @invoke n inc slot idx todo callback hn hidx =>
    obtain ⟨rfl, hone, hinc⟩ := h.tick hn
    have hset : w.ticks.set 0 ⟨inc, slot, todo, some (idx, callback)⟩ =
        [⟨inc, slot, todo, some (idx, callback)⟩] := by
      rw [hone]
      rfl
    refine ⟨.inr ⟨_, hset, hinc⟩, h.whole, fun he => ?_⟩
    rw [hset] at he
    cases he
  | @returns n inc slot todo idx callback now hn =>
    obtain ⟨rfl, hone, hinc⟩ := h.tick hn
    have hset : w.ticks.set 0 ⟨inc, slot, todo, none⟩ = [⟨inc, slot, todo, none⟩] := by
      rw [hone]
      rfl
    cases hloop : callback.loop with
    | true =>
      have hahead : Ahead w.timer.inc (callback.sec.add w.timer.inc).key :=
        hop (idx, callback) (by rw [hn]; rfl) hloop
      have hback : (reschedule w.timer idx callback now).callbacks =
          Timer.place w.timer.callbacks (callback.sec.add w.timer.inc).key idx
            { callback with start_time := now } := by
        rw [reschedule, if_pos hloop]
        rfl
      refine h.place hahead hback (reschedule_inc ..) ?_
      rw [hset, hone]
      rfl
    | false =>
      have hback : (reschedule w.timer idx callback now).callbacks = w.timer.callbacks := by
        simp [reschedule, hloop]
      refine ⟨.inr ⟨_, hset, by simpa using hinc⟩, fun s hs => ?_, fun he => ?_⟩
      · simp only [hback, reschedule_inc] at hs ⊢
        exact h.whole s hs
      · rw [hset] at he
        cases he
  | raises hn => exact hop.elim
  | finish hn =>
    obtain ⟨rfl, hone, -⟩ := h.tick hn
    have hclear : ∀ s, (clearSlot w.timer).callbacks s ≠ none → Ahead w.timer.inc s := by
      intro s hs
      by_cases he : s = intKey w.timer.inc
      · subst he
        exact absurd (Function.update_self ..) hs
      · have hsame : (clearSlot w.timer).callbacks s = w.timer.callbacks s := by
          show update w.timer.callbacks (intKey w.timer.inc) none s = _
          exact Function.update_of_ne he _ _
        exact (h.whole s (hsame ▸ hs)).resolve_right he
    exact ⟨.inl (by rw [hone]; rfl), fun s hs => .inl (hclear s hs), fun _ s hs => (hclear s hs).1⟩

/-! ## The due times -/

/-- The callback is of the registration. -/
def Made (callback : Callback Number F Nat) (r : Registration) : Prop :=
  callback.param = r.tag ∧ callback.sec = r.sec ∧ callback.loop = r.loop

/-- The registrations are told apart by their tags, and every callback is of one. -/
structure Told (w : World Number Int64 NumKey F) : Prop where
  made : ∀ p i callback, At w p i callback →
    ∃ r : Registration, r.event ∈ w.log ∧ r.idx = i ∧ Made callback r
  registered : ∀ r : Registration, r.event ∈ w.log → r.tag < w.tags
  unique : ∀ r r' : Registration, r.event ∈ w.log → r'.event ∈ w.log → r.tag = r'.tag → r = r'
  invoked : ∀ tag idx inc, .invoked tag idx inc ∈ w.log → tag < w.tags

theorem told_new (interval : Option Nat) : Told (.new interval : World Number Int64 NumKey F) where
  made p i callback h := by
    have hknown := (placed_new interval).known p i callback h
    cases hknown
  registered := by simp [World.new]
  unique := by simp [World.new]
  invoked := by simp [World.new]

theorem Told.does (h : Told w) (ho : Orderly w) (hdoes : Does w op w') (hl : w.Legal op)
    (hb : w.Below op) : Told w' := by
  have hlog : ∀ {e}, e ∈ w.log → e ∈ w'.log := fun he => by
    rcases hdoes.log with hlog | ⟨e', hlog, -⟩ <;> rw [hlog]
    · exact he
    · exact List.mem_append_left _ he
  -- a registration is an old one, or the one that the step makes
  have hreg : ∀ r : Registration, r.event ∈ w'.log → r.event ∈ w.log ∨
      r.tag = w.tags ∧ w'.tags = w.tags + 1 ∧ w'.log = w.log ++ [r.event] := by
    intro r hr
    rcases hdoes.log with hlog | ⟨e, hlog, hnew⟩ <;> rw [hlog] at hr
    · exact .inl hr
    · rcases List.mem_append.mp hr with hr | hr
      · exact .inl hr
      · have he := List.mem_singleton.mp hr
        obtain ⟨htag, -, -, f, now, rfl, hsec⟩ := hnew _ _ _ _ _ he.symm
        refine .inr ⟨htag, ?_, he ▸ hlog⟩
        cases hdoes with
        | nothing => exact absurd (congrArg List.length hlog) (by simp)
        | register => rfl
  have htags := hdoes.tags_le
  refine ⟨fun p i callback hat => ?_, fun r hr => ?_, fun r r' hr hr' htag => ?_,
    fun tag idx inc hm => ?_⟩
  · rcases hdoes.at_old ho hl hb hat with
      ⟨p', start_time, hat⟩ | ⟨rfl, sec, f, loop, now, -, rfl, hlog'⟩
    · obtain ⟨r, hr, hidx, hmade⟩ := h.made _ _ _ hat
      exact ⟨r, hlog hr, hidx, hmade⟩
    · exact ⟨⟨w.tags, nextIdx w.timer.timer_idx, w.timer.inc, sec, loop⟩, by
        rw [hlog']; exact List.mem_append_right _ (List.mem_singleton_self _), rfl, rfl, rfl, rfl⟩
  · rcases hreg r hr with hr | ⟨htag, htags, -⟩
    · exact (h.registered r hr).trans_le htags
    · rw [htag, htags]
      exact Nat.lt_succ_self _
  · rcases hreg r hr with hr | ⟨ht, -, hl⟩ <;> rcases hreg r' hr' with hr' | ⟨ht', -, hl'⟩
    · exact h.unique r r' hr hr' htag
    · exact absurd (h.registered r hr) (by rw [htag, ht']; exact Nat.lt_irrefl _)
    · exact absurd (h.registered r' hr') (by rw [← htag, ht]; exact Nat.lt_irrefl _)
    · have he := List.singleton_inj.mp (List.append_cancel_left (hl.symm.trans hl'))
      cases r
      cases r'
      simpa [Registration.event] using he
  · cases hdoes with
    | @invoke n inc' slot idx' todo callback hn hidx =>
      rcases List.mem_append.mp hm with hm | hm
      · exact h.invoked tag idx inc hm
      · obtain ⟨rfl, -⟩ := Event.invoked.inj (List.mem_singleton.mp hm)
        obtain ⟨r, hr, -, hmade⟩ := h.made (.todo inc') idx' callback
          ⟨_, List.mem_of_getElem? hn, rfl, List.mem_cons_self, hidx⟩
        rw [hmade.1]
        exact h.registered r hr
    | register => exact (h.invoked tag idx inc (by simpa using hm)).trans (Nat.lt_succ_self _)
    | unregister => exact h.invoked tag idx inc (by simpa using hm)
    | _ => exact h.invoked tag idx inc hm

/-- A due time waits for its tick, or for the callback to return. -/
def Registration.Awaits (r : Registration) (w : World Number Int64 NumKey F) (d : NumKey) : Prop :=
  ∃ p callback, Made callback r ∧ At w p r.idx callback ∧
    if p = .running w.timer.inc then r.loop = true ∧ d = (r.sec.add w.timer.inc).key else p.key = d

/-- Every due time of a timer that is not unregistered has been served or waits. -/
def Served (w : World Number Int64 NumKey F) : Prop :=
  ∀ r : Registration, r.event ∈ w.log → NeverUnregistered r.tag r.idx w.log →
    ∀ d, r.DueAt w.log d → r.InvokedFor w.log d ∨ r.Awaits w d

theorem Registration.DueAt.of_append {r : Registration} {log : List (Event Number Int64)}
    {e : Event Number Int64} {d : NumKey} (h : r.DueAt (log ++ [e]) d)
    (he : ∀ inc, e ≠ .invoked r.tag r.idx inc) : r.DueAt log d := by
  refine h.imp_right fun ⟨hloop, inc, hm, hd⟩ => ⟨hloop, inc, ?_, hd⟩
  refine (List.mem_append.mp hm).resolve_right fun hm => ?_
  exact he inc (List.mem_singleton.mp hm).symm

theorem Registration.InvokedFor.append {r : Registration} {log : List (Event Number Int64)} {d : NumKey}
    (h : r.InvokedFor log d) (es : List (Event Number Int64)) : r.InvokedFor (log ++ es) d :=
  have ⟨inc, hm, hd⟩ := h
  ⟨inc, List.mem_append_left _ hm, hd⟩

/-- A tick invokes in time what is due in it. -/
theorem le_and_lt_add_one (inc : Int64) : intKey inc ≤ intKey inc ∧ intKey inc < intKey inc + 1 := by
  refine ⟨le_rfl, ?_⟩
  rw [intKey, show (1 : NumKey) = ((1 : ℚ) : NumKey) from rfl, ← WithTop.coe_add, WithTop.coe_lt_coe]
  exact lt_add_one _

theorem Served.register (h : Served w) (hp : Placed w) (ht : Told w) {sec : Number} {f : F}
    {loop : Bool} {now : Int} {t : State Number Int64 NumKey F Nat} (hsec : sec.Pos)
    (hreg : register w.timer sec w.tags f loop now = some (t, nextIdx w.timer.timer_idx))
    (hs : w.Spare (.register sec f loop now)) (hw : w.Whole (.register sec f loop now)) :
    Served ⟨t, w.ticks, w.tags + 1, w.log ++
      [.registered w.tags (nextIdx w.timer.timer_idx) w.timer.inc sec loop]⟩ := by
  obtain ⟨t', e, hinc, -⟩ := register_of_pos w.timer hsec w.tags f loop now
  obtain ⟨rfl, -⟩ := Prod.mk.inj (Option.some.inj (e.symm.trans hreg))
  intro r hr hn d hd
  replace hd : r.DueAt w.log d := Registration.DueAt.of_append hd fun _ => nofun
  rcases List.mem_append.mp hr with hr | hr
  · refine (h r hr hn.of_append d hd).imp (·.append _) ?_
    rintro ⟨p, callback, hmade, hat, hkey⟩
    -- the `idx` that is handed out is at no place
    refine ⟨p, callback, hmade, (at_register hsec hreg).mpr ?_, by rwa [hinc]⟩
    rw [if_neg fun he => hp.not_at_next hs (he.2 ▸ hat)]
    exact hat
  · obtain ⟨tag, idx, inc, sec', loop'⟩ := r
    simp only [Registration.event, List.mem_singleton, Event.registered.injEq] at hr
    obtain ⟨rfl, rfl, rfl, rfl, rfl⟩ := hr
    rcases hd with rfl | ⟨-, inc, hm, -⟩
    · refine .inr ⟨.later (sec'.add w.timer.inc).key, ⟨f, w.tags, sec', loop', now⟩, ⟨rfl, rfl, rfl⟩,
        (at_register hsec hreg).mpr ?_, ?_⟩
      · rw [if_pos ⟨rfl, rfl⟩]
        exact ⟨rfl, (hw hsec).1⟩
      · rw [if_neg (Place.later_ne_running _ _)]
        rfl
    · exact absurd (ht.invoked _ _ _ hm) (Nat.lt_irrefl _)

/-- The tick starts: what is due in it has not been unregistered, so the tick is to meet it. -/
theorem Served.start (h : Served w) (hi : Issued w) {order : List Nat}
    (hl : w.Legal (.start order)) (hb : w.timer.inc < Int64.maxValue) (hone : w.ticks = [])
    (hdoes : Does w (.start order) w')
    (hwhole : ∀ s, w.timer.callbacks s ≠ none → Ahead w.timer.inc s) (hlog : w'.log = w.log) :
    Served w' := by
  intro r hr hn d hd
  rw [hlog] at hr hn hd ⊢
  refine (h r hr hn d hd).imp_right ?_
  rintro ⟨p, callback, hmade, hat, hkey⟩
  have hq : r.idx ∉ w.timer.unregister_idx := fun hq =>
    (hmade.1 ▸ hi.queue p r.idx callback hat hq).not_never hn
  -- no tick is under way, so the timer is in the slot of a later one
  cases p with
  | todo inc =>
    obtain ⟨tick, hm, -⟩ := hat
    rw [hone] at hm
    cases hm
  | running inc =>
    obtain ⟨tick, hm, -⟩ := hat
    rw [hone] at hm
    cases hm
  | later s =>
    rw [if_neg (Place.later_ne_running _ _)] at hkey
    have hs : w.timer.callbacks s ≠ none := by
      intro hs
      rw [At, entry, hs] at hat
      cases hat.1
    have hle := (hwhole s hs).succ_le hb
    cases hdoes with
    | nothing => exact ⟨.later s, callback, hmade, hat, by rwa [if_neg (Place.later_ne_running _ _)]⟩
    | idle hslot =>
      have hne : intKey (w.timer.inc + 1) ≠ s := fun he => not_at_idle hslot hq (he ▸ hat)
      refine ⟨.later s, callback, hmade, (at_idle hb).mpr ⟨hat, ?_⟩, by rwa [if_neg (Place.later_ne_running _ _)]⟩
      rintro _ ⟨⟩
      exact lt_of_le_of_ne hle hne
    | start hslot =>
      rcases hle.lt_or_eq with hlt | rfl
      · refine ⟨.later s, callback, hmade, (at_start hb hl hslot).mpr (.inl ⟨hat, ?_⟩),
          by rwa [if_neg (Place.later_ne_running _ _)]⟩
        rintro _ ⟨⟩
        exact hlt
      · refine ⟨.todo (w.timer.inc + 1), callback, hmade,
          (at_start hb hl hslot).mpr (.inr ⟨rfl, hat, hq⟩), ?_⟩
        rw [if_neg (Place.todo_ne_running _ _)]
        exact hkey

/-- The callback is called: a due time is served, and that of a loop timer makes the next. -/
theorem Served.invoke (h : Served w) (hp : Placed w) (ht : Told w) (hslots : Slots w) {n : Nat}
    {inc : Int64} {slot : Slot Number F Nat} {idx : Nat} {todo : List Nat}
    {callback : Callback Number F Nat} (hn : w.ticks[n]? = some ⟨inc, slot, idx :: todo, none⟩)
    (hidx : slot idx = some callback) :
    Served { w with
      ticks := w.ticks.set n ⟨inc, slot, todo, some (idx, callback)⟩,
      log := w.log ++ [.invoked callback.param idx w.timer.inc] } := by
  obtain ⟨-, hone, rfl⟩ := hslots.tick hn
  have hmet : At w (.todo w.timer.inc) idx callback :=
    ⟨_, List.mem_of_getElem? hn, rfl, List.mem_cons_self, hidx⟩
  obtain ⟨r₀, hr₀, hidx₀, hmade₀⟩ := ht.made _ _ _ hmet
  intro r hr hn' d hd
  have hr : r.event ∈ w.log := (List.mem_append.mp hr).resolve_right fun hm => by
    simp [Registration.event] at hm
  -- an old due time, or that of the callback's next run
  have hd : r.DueAt w.log d ∨ r.loop = true ∧ r = r₀ ∧ d = (r.sec.add w.timer.inc).key := by
    by_cases he : r.tag = callback.param ∧ r.idx = idx
    · have hr₀ := ht.unique r r₀ hr hr₀ (he.1.trans hmade₀.1)
      rcases hd with hd | ⟨hloop, inc, hm, hd⟩
      · exact .inl (.inl hd)
      · rcases List.mem_append.mp hm with hm | hm
        · exact .inl (.inr ⟨hloop, inc, hm, hd⟩)
        · obtain ⟨-, -, rfl⟩ := Event.invoked.inj (List.mem_singleton.mp hm)
          exact .inr ⟨hloop, hr₀, hd⟩
    · refine .inl (hd.of_append fun inc e => he ?_)
      obtain ⟨htag, hidx, -⟩ := Event.invoked.inj e
      exact ⟨htag.symm, hidx.symm⟩
  rcases hd with hd | ⟨hloop, rfl, rfl⟩
  · rcases h r hr hn'.of_append d hd with hserved | ⟨p, callback', hmade, hat, hkey⟩
    · exact .inl (hserved.append _)
    · by_cases hmet' : p = .todo w.timer.inc ∧ r.idx = idx
      · obtain ⟨rfl, rfl⟩ := hmet'
        obtain ⟨-, rfl⟩ := hp.unique hat hmet
        rw [if_neg (Place.todo_ne_running _ _)] at hkey
        rw [← hkey]
        refine .inl ⟨w.timer.inc, List.mem_append_right _ ?_, le_and_lt_add_one _⟩
        rw [hmade.1]
        exact List.mem_singleton_self _
      · exact .inr ⟨p, callback', hmade, (at_invoke hp.orderly hn hidx).mpr (.inr ⟨hmet', hat⟩), hkey⟩
  · refine .inr ⟨.running w.timer.inc, callback, hmade₀,
      (at_invoke hp.orderly hn hidx).mpr (.inl ⟨rfl, hidx₀, rfl⟩), ?_⟩
    rw [if_pos rfl]
    exact ⟨hloop, rfl⟩

/-- The callback returns: a loop timer comes to the slot of its next due time. -/
theorem Served.returns (h : Served w) (hp : Placed w) (hslots : Slots w) {n : Nat}
    {inc : Int64} {slot : Slot Number F Nat} {todo : List Nat} {idx : Nat}
    {callback : Callback Number F Nat} {now : Int}
    (hn : w.ticks[n]? = some ⟨inc, slot, todo, some (idx, callback)⟩) (hw : w.Whole (.returns n now)) :
    Served { w with
      timer := reschedule w.timer idx callback now,
      ticks := w.ticks.set n ⟨inc, slot, todo, none⟩ } := by
  obtain ⟨-, hone, rfl⟩ := hslots.tick hn
  have hrun : At w (.running w.timer.inc) idx callback := ⟨_, List.mem_of_getElem? hn, rfl, rfl⟩
  intro r hr hn' d hd
  refine (h r hr hn' d hd).imp_right ?_
  rintro ⟨p, callback', hmade, hat, hkey⟩
  by_cases hpr : p = .running w.timer.inc
  · subst hpr
    rw [if_pos rfl] at hkey
    obtain ⟨tick, hm, -, hcur⟩ := hat
    rw [hone] at hm
    obtain rfl := List.mem_singleton.mp hm
    obtain ⟨rfl, rfl⟩ := Prod.mk.inj (Option.some.inj hcur)
    have hloop : callback.loop = true := hmade.2.2.trans hkey.1
    refine ⟨.later (callback.sec.add w.timer.inc).key, { callback with start_time := now }, hmade,
      (at_returns hp.orderly hn).mpr ?_, ?_⟩
    · rw [if_pos ⟨hloop, rfl, rfl⟩]
      exact ⟨rfl, (hw (r.idx, callback) (by rw [hn]; rfl) hloop).1⟩
    · rw [if_neg (Place.later_ne_running _ _), hkey.2, ← hmade.2.1]
      rfl
  · have hne : r.idx ≠ idx := by
      rintro rfl
      exact hpr (hp.unique hat hrun).1
    refine ⟨p, callback', hmade, (at_returns hp.orderly hn).mpr ?_, by simpa using hkey⟩
    rw [if_neg fun he => hne he.2.2]
    exact ⟨hpr, hat⟩

theorem Served.does (h : Served w) (hi : Issued w) (ht : Told w) (hslots : Slots w)
    (hdoes : Does w op w') (hop : w.Regular op) (hw : w.Whole op) : Served w' := by
  have hp := hi.placed
  obtain ⟨hl, hb, hs⟩ := hop
  have hwhole : w.ticks = [] → ∀ s, w.timer.callbacks s ≠ none → Ahead w.timer.inc s := by
    intro hone s hs
    refine (hslots.whole s hs).resolve_right ?_
    rintro rfl
    exact lt_irrefl _ (hslots.later hone _ hs)
  cases hdoes with
  | nothing => exact h
  | register hsec hreg => exact h.register hp ht hsec hreg hs hw
  | unregister idx =>
    intro r hr hn d hd
    have hr : r.event ∈ w.log := (List.mem_append.mp hr).resolve_right fun hm => by
      simp [Registration.event] at hm
    have hd : r.DueAt w.log d := Registration.DueAt.of_append hd fun _ => nofun
    refine (h r hr hn.of_append d hd).imp (·.append _) ?_
    rintro ⟨p, callback, hmade, hat, hkey⟩
    exact ⟨p, callback, hmade, at_unregister.mpr hat, by simpa using hkey⟩
  | idle hslot => exact h.start hi hl hb hw (.idle hslot) (hwhole hw) rfl
  | start hslot => exact h.start hi hl hb hw (.start hslot) (hwhole hw) rfl
  | invoke hn hidx => exact h.invoke hp ht hslots hn hidx
  | returns now hn => exact h.returns hp hslots hn hw
  | raises hn => exact hw.elim
  | finish hn =>
    intro r hr hn' d hd
    refine (h r hr hn' d hd).imp_right ?_
    rintro ⟨p, callback, hmade, hat, hkey⟩
    exact ⟨p, callback, hmade, (at_finish hp.orderly hn).mpr hat, hkey⟩

/-- In every run of whole keys ahead of `inc`, of ticks one after the other and of callbacks that do
not raise, whose `idx`s are spare and vacant, every timer that is not unregistered is invoked in time,
and between two ticks no slot is left behind. -/
theorem in_time {interval : Option Nat} {w : World Number Int64 NumKey F}
    (h : Machine.Reach World.exec (fun w op => w.Regular op ∧ w.Vacant op ∧ w.Whole op)
      (.new interval) w) (hidle : w.ticks = []) : InTime w := by
  have hinv : Issued w ∧ Told w ∧ Slots w ∧ Served w := by
    refine invariant_of_does (fun w => Issued w ∧ Told w ∧ Slots w ∧ Served w) h
      ⟨issued_new interval, told_new interval, slots_new interval, ?_⟩ ?_
    · intro r hr
      simp [World.new] at hr
    · rintro w op w' ⟨hi, ht, hslots, hserved⟩ ⟨hop, hv, hw⟩ hdoes
      exact ⟨hi.does hdoes hop hv, ht.does hi.placed.orderly hdoes hop.1 hop.2.1,
        hslots.does hdoes hop.2.1 hw, hserved.does hi ht hslots hdoes hop hw⟩
  obtain ⟨-, -, hslots, hserved⟩ := hinv
  refine ⟨fun r hr hn d hd hle => ?_, hslots.later hidle⟩
  refine (hserved r hr hn d hd).resolve_right ?_
  rintro ⟨p, callback, -, hat, hkey⟩
  cases p with
  | later s =>
    rw [if_neg (Place.later_ne_running _ _)] at hkey
    rw [← hkey] at hle
    exact absurd hle (not_le_of_gt hat.2)
  | todo inc =>
    obtain ⟨tick, hm, -⟩ := hat
    rw [hidle] at hm
    cases hm
  | running inc =>
    obtain ⟨tick, hm, -⟩ := hat
    rw [hidle] at hm
    cases hm

/-- A loop timer and one that runs once, and two ticks. -/
def twoTicks : List (Op Number Unit) :=
  [.register (.int 1) () true 0, .register (.float 2) () false 0, .start [1], .invoke 0, .returns 0 1,
    .finish 0, .start [2, 1], .invoke 0, .returns 0 2, .invoke 0, .returns 0 2, .finish 0]

theorem in_time_sample : ∃ inc : Int64,
    .invoked 1 2 inc ∈ (twoTicks.foldl World.exec (.new none : World Number Int64 NumKey Unit)).log ∧
      intKey 2 ≤ intKey inc ∧ intKey inc < intKey 2 + 1 := by
  have h := reach_of_checked (K := NumKey) (fun w op => w.Below op ∧ w.Spare op ∧ w.Vacant op ∧
    w.Whole op) none twoTicks (by decide +kernel) (by decide +kernel)
  have hreach : Machine.Reach World.exec (fun w op => w.Regular op ∧ w.Vacant op ∧ w.Whole op)
      (.new none) _ := h.mono fun w op hop => ⟨⟨hop.1, hop.2.1, hop.2.2.1⟩, hop.2.2.2⟩
  have hidle := List.isEmpty_iff.mp (show (twoTicks.foldl World.exec
    (.new none : World Number Int64 NumKey Unit)).ticks.isEmpty = true by decide +kernel)
  exact (in_time hreach hidle).invoked ⟨1, 2, 0, .float 2, false⟩ (by decide +kernel)
    (neverUnregistered_of_not_mem (by decide +kernel)) (intKey 2) (.inl (by decide +kernel))
    (by decide +kernel)

/-- A timer of half a tick, and the first tick. -/
def halfTick : List (Op Number Unit) := [.register (.float (1 / 2)) () false 0, .start []]

/-- It is not invoked in the first tick, and its slot is left. -/
theorem half_tick_late :
    ¬ ∀ w : World Number Int64 NumKey Unit,
      Machine.Reach World.exec (fun w op => w.Legal op ∧ ∀ n, op ≠ .raises n) (.new none) w →
        w.ticks = [] → InTime w := by
  intro hall
  have h := reach_of_checked (K := NumKey) (fun _ op => ∀ n, op ≠ .raises n) none halfTick
    (by decide +kernel) ⟨⟨by decide, fun _ => nofun⟩, ⟨by decide +kernel, fun _ => nofun⟩, trivial⟩
  have hidle := List.isEmpty_iff.mp (show (halfTick.foldl World.exec
    (.new none : World Number Int64 NumKey Unit)).ticks.isEmpty = true by decide +kernel)
  have hentry : (entry (halfTick.foldl World.exec
    (.new none : World Number Int64 NumKey Unit)).timer ((1 / 2 : ℚ) : NumKey) 1).isSome := by
    decide +kernel
  have hslot := (hall _ h hidle).slots ((1 / 2 : ℚ) : NumKey) fun hnone => by
    rw [entry, hnone] at hentry
    cases hentry
  exact absurd hslot (by decide +kernel)

end SkynetHotfix.Timer.Overlap
