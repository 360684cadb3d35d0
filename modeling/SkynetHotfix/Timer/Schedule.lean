import SkynetHotfix.Timer.Found
import SkynetHotfix.Timer.Reuse

/-!
# Timers: every callback on its schedule

What holds, while the counter has not wrapped, of a registration of an integer delay that is never
unregistered (`OnTime`): it has been invoked at its first `k` due ticks and no other, and waits for
the next one (`Waits`), unless its callback runs (`Runs`) or it was to run once and has (`Done`). A
loop timer goes on from the `inc` at which it returns, so the next tick may not start before it has
(`Prompt`, `sleeping_skips`). `invoked_on_schedule` is what the invariant says of the log.
-/

namespace SkynetHotfix.Timer.Overlap

open Lua (Number NumKey intKey)

variable {F : Type} {w w' : World Number Int64 NumKey F} {op : Op Number F} {order : List Nat}
  {p : Place} {s : NumKey} {i : Nat} {callback : Callback Number F Nat}

/-- A tick starts when those under way have called all that they have to, and no callback of theirs
that has not returned is a loop timer's. -/
def World.Prompt (w : World Number Int64 NumKey F) : Op Number F → Prop
  | .start _ => ∀ tick ∈ w.ticks, tick.todo = [] ∧
      ∀ current ∈ tick.current, current.2.loop = false
  | _ => True

instance (w : World Number Int64 NumKey F) : ∀ op, Decidable (w.Prompt op)
  | .start _ => inferInstanceAs (Decidable (∀ tick ∈ _, _ = _ ∧ ∀ current ∈ _, _ = _))
  | .register .. | .unregister _ | .invoke _ | .returns .. | .raises _ | .finish _ =>
    .isTrue trivial

/-- No callback raises. -/
def Op.Quiet : Op Number F → Prop
  | .raises _ => False
  | _ => True

instance : ∀ op : Op Number F, Decidable op.Quiet
  | .raises _ => .isFalse id
  | .start _ | .register .. | .unregister _ | .invoke _ | .returns .. | .finish _ => .isTrue trivial

/-! ## One registration -/

/-- A registration made at tick `inc` for `sec` ticks later. -/
structure Reg where
  tag : Nat
  inc : Int64
  sec : Int64
  loop : Bool

/-- Its `k`-th due tick. -/
def Reg.due (r : Reg) (k : Nat) : Int := r.inc.toInt + k * r.sec.toInt

theorem Reg.due_succ (r : Reg) (k : Nat) : r.due (k + 1) = r.due k + r.sec.toInt := by
  simp only [Reg.due]
  push_cast
  ring

/-- The callback is its own, where one is under its `idx`. -/
def Reg.At (r : Reg) (w : World Number Int64 NumKey F) (p : Place) : Prop :=
  ∃ callback, Overlap.At w p (r.tag + 1) callback ∧ callback.sec = .int r.sec ∧
    callback.loop = r.loop

/-- No callback is under its `idx`. -/
def Reg.Gone (r : Reg) (w : World Number Int64 NumKey F) : Prop :=
  ∀ p callback, ¬ Overlap.At w p (r.tag + 1) callback

/-- It waits for its next due tick, which does not come where it is past the last one. -/
def Waits (w : World Number Int64 NumKey F) (r : Reg) (k : Nat) : Prop :=
  (r.loop = true ∨ k = 0) ∧
    ((∃ inc, inc.toInt = r.due (k + 1) ∧ (r.At w (.later (intKey inc)) ∨
        r.At w (.todo inc) ∧ inc = w.timer.inc)) ∨
      Int64.maxValue.toInt < r.due (k + 1) ∧ r.Gone w)

/-- The callback of the loop timer runs. -/
def Runs (w : World Number Int64 NumKey F) (r : Reg) (k : Nat) : Prop :=
  r.loop = true ∧ w.timer.inc.toInt = r.due k ∧ r.At w (.running w.timer.inc)

/-- It was to run once and has, or does. -/
def Done (w : World Number Int64 NumKey F) (r : Reg) (k : Nat) : Prop :=
  r.loop = false ∧ k = 1 ∧ (r.Gone w ∨ ∃ inc, r.At w (.running inc))

/-- It was invoked at its first `k` due ticks and no other. -/
def OnTime (w : World Number Int64 NumKey F) (r : Reg) : Prop :=
  ∃ k, (invocations r.tag w.log).map Int64.toInt = (List.range k).map (fun j => r.due (j + 1)) ∧
    r.due k ≤ w.timer.inc.toInt ∧ (Waits w r k ∨ Runs w r k ∨ Done w r k)

/-- Nothing about the registration has changed. -/
theorem OnTime.same {r : Reg} (h : OnTime w r) (hinc : w'.timer.inc = w.timer.inc)
    (hlog : invocations r.tag w'.log = invocations r.tag w.log)
    (hat : ∀ p callback, At w' p (r.tag + 1) callback ↔ At w p (r.tag + 1) callback) :
    OnTime w' r := by
  have hrat : ∀ p, r.At w' p ↔ r.At w p := fun p => by simp only [Reg.At, hat]
  have hgone : r.Gone w' ↔ r.Gone w := by simp only [Reg.Gone, hat]
  obtain ⟨k, h₁, h₂, h₃⟩ := h
  refine ⟨k, hlog ▸ h₁, hinc ▸ h₂, ?_⟩
  simpa only [Waits, Runs, Done, hrat, hgone, hinc] using h₃

/-- Registered, and never unregistered since. -/
structure Watched (w : World Number Int64 NumKey F) (r : Reg) : Prop where
  mem : .registered r.tag (r.tag + 1) r.inc (.int r.sec) r.loop ∈ w.log
  kept : NeverUnregistered r.tag (r.tag + 1) w.log

/-- What holds of a run, as long as the counter has not wrapped. -/
structure Scheduled (w : World Number Int64 NumKey F) : Prop where
  issued : Issued w
  numbered : Numbered w
  onTime : ∀ r, Watched w r → OnTime w r

/-- Where a registration waits that is at some place. -/
theorem Waits.place {r : Reg} {k : Nat} (h : Waits w r k) (hp : Placed w) {p : Place}
    {callback : Callback Number F Nat} (hat : At w p (r.tag + 1) callback) :
    callback.sec = .int r.sec ∧ callback.loop = r.loop ∧ (r.loop = true ∨ k = 0) ∧
      ∃ inc, inc.toInt = r.due (k + 1) ∧
        (p = .later (intKey inc) ∨ p = .todo inc ∧ inc = w.timer.inc) := by
  obtain ⟨hk, ⟨inc, hdue, ⟨callback', hat', hsec, hloop⟩ | ⟨⟨callback', hat', hsec, hloop⟩, hinc⟩⟩ |
    ⟨-, hgone⟩⟩ := h
  · obtain ⟨rfl, rfl⟩ := hp.unique hat hat'
    exact ⟨hsec, hloop, hk, inc, hdue, .inl rfl⟩
  · obtain ⟨rfl, rfl⟩ := hp.unique hat hat'
    exact ⟨hsec, hloop, hk, inc, hdue, .inr ⟨rfl, hinc⟩⟩
  · exact absurd hat (hgone p callback)

theorem Runs.place {r : Reg} {k : Nat} (h : Runs w r k) (hp : Placed w) {p : Place}
    {callback : Callback Number F Nat} (hat : At w p (r.tag + 1) callback) :
    callback.sec = .int r.sec ∧ callback.loop = r.loop ∧ p = .running w.timer.inc := by
  obtain ⟨-, -, callback', hat', hsec, hloop⟩ := h
  obtain ⟨rfl, rfl⟩ := hp.unique hat hat'
  exact ⟨hsec, hloop, rfl⟩

theorem Done.place {r : Reg} {k : Nat} (h : Done w r k) (hp : Placed w) {p : Place}
    {callback : Callback Number F Nat} (hat : At w p (r.tag + 1) callback) :
    callback.loop = r.loop ∧ ∃ inc, p = .running inc := by
  obtain ⟨-, -, hgone | ⟨inc, callback', hat', -, hloop⟩⟩ := h
  · exact absurd hat (hgone p callback)
  · obtain ⟨rfl, rfl⟩ := hp.unique hat hat'
    exact ⟨hloop, inc, rfl⟩

/-! ## What a step does to one registration -/

/-- A delay is added as it is, or lost in a sum past the largest integer. -/
theorem add_cases {sec : Int64} (hsec : 0 < sec) (inc : Int64) :
    (inc + sec).toInt = inc.toInt + sec.toInt ∧ inc < inc + sec ∨
      Int64.maxValue.toInt < inc.toInt + sec.toInt ∧ inc + sec < inc := by
  have hmax : Int64.maxValue.toInt = 2 ^ 63 - 1 := rfl
  have hpos : 0 < sec.toInt := by simpa [Int64.lt_iff_toInt_lt] using hsec
  have hlt := Int64.toInt_lt inc
  have hlt' := Int64.toInt_lt sec
  have hle := Int64.le_toInt inc
  rw [Int64.lt_iff_toInt_lt, Int64.lt_iff_toInt_lt, Int64.toInt_add]
  by_cases hsum : inc.toInt + sec.toInt ≤ Int64.maxValue.toInt
  · have e := Int.bmod_eq_of_le (n := inc.toInt + sec.toInt) (m := 2 ^ 64) (by omega) (by omega)
    exact .inl ⟨e, by omega⟩
  · have e := Int.bmod_eq_of_le (n := inc.toInt + sec.toInt - 2 ^ 64) (m := 2 ^ 64) (by omega)
      (by omega)
    have e' : (inc.toInt + sec.toInt).bmod (2 ^ 64) = inc.toInt + sec.toInt - 2 ^ 64 := by
      rw [← e, Int.sub_eq_add_neg]
      exact (Int.add_neg_mul_bmod_self_right _ 1 (2 ^ 64)).symm
    exact .inr ⟨by omega, by omega⟩

/-- A registration that is not the newest keeps its place. -/
theorem at_register_old (h : Numbered w) {sec : Number} {f : F} {loop : Bool} {now : Int}
    {t : State Number Int64 NumKey F Nat} {log : List (Event Number Int64)} (hsec : sec.Pos)
    (hreg : register w.timer sec w.tags f loop now = some (t, nextIdx w.timer.timer_idx))
    (hb : w.tags + 1 ≤ 2147483646) {tag : Nat} (htag : tag < w.tags) (p : Place)
    (callback : Callback Number F Nat) :
    At { w with timer := t, tags := w.tags + 1, log := log } p (tag + 1) callback ↔
      At w p (tag + 1) callback := by
  rw [at_register hsec hreg, if_neg]
  rintro ⟨-, he⟩
  rw [h.nextIdx hb] at he
  omega

/-- The newest one waits for its first due tick. -/
theorem Scheduled.register (h : Scheduled w) {sec : Int64} {f : F} {loop : Bool} {now : Int}
    {t : State Number Int64 NumKey F Nat} (hsec : 0 < sec)
    (hreg : register w.timer (.int sec) w.tags f loop now =
      some (t, nextIdx w.timer.timer_idx))
    (hb : w.tags + 1 ≤ 2147483646) {log : List (Event Number Int64)}
    (hlog : invocations w.tags log = invocations w.tags w.log) :
    OnTime ⟨t, w.ticks, w.tags + 1, log⟩ ⟨w.tags, w.timer.inc, sec, loop⟩ := by
  have hpos : (Number.int sec).Pos := hsec
  obtain ⟨t', e, hinc, -⟩ := register_of_pos w.timer hpos w.tags f loop now
  obtain ⟨rfl, -⟩ := Prod.mk.inj (Option.some.inj (e.symm.trans hreg))
  have hnone : invocations w.tags w.log = [] :=
    invocations_eq_nil fun idx inc hm => absurd (h.numbered.invoked _ _ _ hm) (Nat.lt_irrefl _)
  have hnext := h.numbered.nextIdx hb
  have hspare : w.Spare (.register (.int sec) f loop now) := .inl hb
  have hfresh : ∀ p callback, ¬ At w p (w.tags + 1) callback := fun p callback hat =>
    h.issued.placed.not_at_next hspare (hnext ▸ hat)
  have hat : ∀ p callback, At ⟨t', w.ticks, w.tags + 1, log⟩ p (w.tags + 1) callback ↔
      p = .later (intKey (w.timer.inc + sec)) ∧ callback = ⟨f, w.tags, .int sec, loop, now⟩ ∧
        w.timer.inc < w.timer.inc + sec := by
    intro p callback
    have hkey : ((Number.int sec).add w.timer.inc).key = intKey (w.timer.inc + sec) := rfl
    rw [at_register hpos hreg, hnext, hkey, Lua.intKey_lt]
    split
    · rename_i hp
      exact ⟨fun hc => ⟨hp.1, hc⟩, fun hc => hc.2⟩
    · rename_i hp
      exact ⟨fun hc => absurd hc (hfresh p callback), fun hc => absurd ⟨hc.1, rfl⟩ hp⟩
  have hdue : Reg.due ⟨w.tags, w.timer.inc, sec, loop⟩ (0 + 1) = w.timer.inc.toInt + sec.toInt := by
    simp [Reg.due]
  refine ⟨0, by rw [hlog, hnone]; rfl, by simp [Reg.due, hinc], .inl ⟨.inr rfl, ?_⟩⟩
  rw [hdue]
  rcases add_cases hsec w.timer.inc with ⟨hsum, hlt⟩ | ⟨hsum, hlt⟩
  · refine .inl ⟨w.timer.inc + sec, hsum, .inl ⟨_, (hat _ _).mpr ⟨rfl, rfl, hlt⟩, rfl, rfl⟩⟩
  · refine .inr ⟨hsum, fun p callback hat' => ?_⟩
    exact absurd ((hat _ _).mp hat').2.2 (Int64.lt_asymm hlt)

/-- A tick that starts leaves what is not in its slot. -/
theorem Does.at_start_keep (hdoes : Does w (.start order) w') (hl : w.Legal (.start order))
    (hb : w.timer.inc < Int64.maxValue) (hat : At w p i callback)
    (hs : ∀ s, p = .later s → intKey (w.timer.inc + 1) < s) : At w' p i callback := by
  cases hdoes with
  | nothing => exact hat
  | idle hslot => exact (at_idle hb).mpr ⟨hat, hs⟩
  | start hslot => exact (at_start hb hl hslot).mpr (.inl ⟨hat, hs⟩)

/-- And is to meet what is, and is not queued. -/
theorem Does.at_start_due (hdoes : Does w (.start order) w') (hl : w.Legal (.start order))
    (hb : w.timer.inc < Int64.maxValue) (hinc : w'.timer.inc = w.timer.inc + 1)
    (hat : At w (.later (intKey (w.timer.inc + 1))) i callback)
    (hq : i ∉ w.timer.unregister_idx) : At w' (.todo (w.timer.inc + 1)) i callback := by
  cases hdoes with
  | nothing => exact absurd hinc (Int64.ne_of_lt (lt_succ hb))
  | idle hslot => exact absurd hat (not_at_idle hslot hq)
  | start hslot => exact (at_start hb hl hslot).mpr (.inr ⟨rfl, hat, hq⟩)

/-- Nobody has asked to unregister it. -/
theorem Scheduled.not_queued (h : Scheduled w) {r : Reg} (hr : Watched w r)
    (hat : At w (.later s) (r.tag + 1) callback) : r.tag + 1 ∉ w.timer.unregister_idx := by
  intro hq
  have hreq := h.issued.queue _ _ _ hat hq
  have htag := Nat.succ.inj (h.numbered.entry _ _ _ hat.1).1
  rw [← htag] at hreq
  exact hreq.not_never hr.kept

/-- When a tick starts, a registration comes to it or waits on. -/
theorem Scheduled.start (h : Scheduled w) {r : Reg} (hr : Watched w r)
    (hl : w.Legal (.start order)) (hb : w.timer.inc < Int64.maxValue)
    (hprompt : w.Prompt (.start order)) (hdoes : Does w (.start order) w')
    (hinc : w'.timer.inc = w.timer.inc + 1) (hlog : w'.log = w.log) : OnTime w' r := by
  have hgone : r.Gone w → r.Gone w' := by
    intro hgone p callback hat
    rcases hdoes.at_old h.issued.placed.orderly hl hb hat with ⟨p', start_time, hat⟩ | ⟨-, hreg⟩
    · exact hgone _ _ hat
    · obtain ⟨_, _, _, _, hop, -⟩ := hreg
      cases hop
  obtain ⟨k, hinv, hle, hcase⟩ := h.onTime r hr
  have hsucc := toInt_succ hb
  refine ⟨k, hlog ▸ hinv, by rw [hinc, hsucc]; omega, ?_⟩
  rcases hcase with ⟨hk, ⟨inc, hdue, ⟨callback, hat, hmade⟩ | ⟨⟨callback, ⟨tick, hm, -, hi, -⟩, -⟩, -⟩⟩ |
      ⟨hlost, hg⟩⟩ | ⟨hloop, -, callback, ⟨tick, hm, -, hcur⟩, -, hl'⟩ | ⟨hloop, hk, hdone⟩
  · refine .inl ⟨hk, .inl ⟨inc, hdue, ?_⟩⟩
    have hlt : w.timer.inc < inc := Lua.intKey_lt.mp hat.2
    rcases eq_or_ne inc (w.timer.inc + 1) with rfl | hne
    · exact .inr ⟨⟨callback, hdoes.at_start_due hl hb hinc hat (h.not_queued hr hat), hmade⟩,
        hinc.symm⟩
    · refine .inl ⟨callback, hdoes.at_start_keep hl hb hat ?_, hmade⟩
      rintro _ ⟨⟩
      have hne' := mt Int64.toInt_inj.mp hne
      rw [Lua.intKey_lt, Int64.lt_iff_toInt_lt, hsucc]
      rw [Int64.lt_iff_toInt_lt] at hlt
      omega
  · -- the ticks under way have called all that they have to
    rw [(hprompt tick hm).1] at hi
    cases hi
  · exact .inl ⟨hk, .inr ⟨hlost, hgone hg⟩⟩
  · -- and their loop timers have returned
    have hnot := (hprompt tick hm).2 _ hcur
    rw [hl', hloop] at hnot
    cases hnot
  · refine .inr (.inr ⟨hloop, hk, hdone.imp hgone ?_⟩)
    rintro ⟨inc, callback, hat, hmade⟩
    exact ⟨inc, callback, hdoes.at_start_keep hl hb hat fun _ => nofun, hmade⟩

section

variable {n : Nat} {inc : Int64} {slot : Slot Number F Nat} {idx : Nat} {todo : List Nat}
  {callback' : Callback Number F Nat}

/-- When a callback is called, a due tick of its registration is met. -/
theorem Scheduled.invoke (h : Scheduled w) {r : Reg} (hr : Watched w r)
    (hn : w.ticks[n]? = some ⟨inc, slot, idx :: todo, none⟩) (hidx : slot idx = some callback') :
    OnTime { w with
      ticks := w.ticks.set n ⟨inc, slot, todo, some (idx, callback')⟩,
      log := w.log ++ [.invoked callback'.param idx w.timer.inc] } r := by
  have ho := h.issued.placed.orderly
  have hp := h.issued.placed
  have hmet : At w (.todo inc) idx callback' :=
    ⟨_, List.mem_of_getElem? hn, rfl, List.mem_cons_self, hidx⟩
  have htag := (h.numbered.slot _ (List.mem_of_getElem? hn) _ _ hidx).1
  have hinvoked : ∀ tag, invocations tag (w.log ++ [.invoked callback'.param idx w.timer.inc]) =
      invocations tag w.log ++ if callback'.param = tag then [w.timer.inc] else [] := by
    intro tag
    rw [invocations_append]
    by_cases he : callback'.param = tag <;> simp [invocations, he]
  by_cases he : idx = r.tag + 1
  · subst he
    obtain ⟨k, hinv, -, hwait | hrun | hdone⟩ := h.onTime r hr
    · obtain ⟨hsec, hloop, hk, inc, hdue, ⟨⟨⟩⟩ | ⟨⟨⟩, rfl⟩⟩ := hwait.place hp hmet
      have hrun : r.At { w with
          ticks := w.ticks.set n ⟨w.timer.inc, slot, todo, some (r.tag + 1, callback')⟩,
          log := w.log ++ [.invoked callback'.param (r.tag + 1) w.timer.inc] }
          (.running w.timer.inc) :=
        ⟨callback', (at_invoke ho hn hidx).mpr (.inl ⟨rfl, rfl, rfl⟩), hsec, hloop⟩
      refine ⟨k + 1, ?_, hdue.ge, ?_⟩
      · rw [hinvoked, if_pos (Nat.succ.inj htag).symm, List.map_append, hinv, List.range_succ,
          List.map_append]
        simp [hdue]
      · rcases Bool.eq_false_or_eq_true r.loop with hl | hl
        · exact .inr (.inl ⟨hl, hdue, hrun⟩)
        · obtain rfl := hk.resolve_left (by simp [hl])
          exact .inr (.inr ⟨hl, rfl, .inr ⟨_, hrun⟩⟩)
    · cases (hrun.place hp hmet).2.2
    · obtain ⟨-, _, ⟨⟩⟩ := hdone.place hp hmet
  · refine (h.onTime r hr).same rfl ?_ fun p callback => ?_
    · rw [hinvoked, if_neg (by omega), List.append_nil]
    · rw [at_invoke ho hn hidx]
      have hne : r.tag + 1 ≠ idx := Ne.symm he
      simp [hne]

/-- When a callback returns, its registration waits for the next due tick, or is done. -/
theorem Scheduled.returns (h : Scheduled w) {r : Reg} (hr : Watched w r) (hsec : 0 < r.sec)
    {now : Int} (hn : w.ticks[n]? = some ⟨inc, slot, todo, some (idx, callback')⟩) :
    OnTime { w with
      timer := reschedule w.timer idx callback' now,
      ticks := w.ticks.set n ⟨inc, slot, todo, none⟩ } r := by
  have ho := h.issued.placed.orderly
  have hp := h.issued.placed
  have hat : At w (.running inc) idx callback' := ⟨_, List.mem_of_getElem? hn, rfl, rfl⟩
  have hleft : ∀ p callback, At w p idx callback → p = .running inc := fun p callback h =>
    (hp.unique h hat).1
  by_cases he : idx = r.tag + 1
  · subst he
    obtain ⟨k, hinv, hle, hwait | hrun | hdone⟩ := h.onTime r hr
    · obtain ⟨-, -, -, _, -, ⟨⟨⟩⟩ | ⟨⟨⟩, -⟩⟩ := hwait.place hp hat
    · obtain ⟨hsec', hloop', ⟨⟩⟩ := hrun.place hp hat
      obtain ⟨hloop, hdue, -⟩ := hrun
      have hkey : (callback'.sec.add w.timer.inc).key = intKey (w.timer.inc + r.sec) := by
        rw [hsec']
        rfl
      refine ⟨k, hinv, by simpa using hle, .inl ⟨.inl hloop, ?_⟩⟩
      rw [Reg.due_succ, ← hdue]
      rcases add_cases hsec w.timer.inc with ⟨hsum, hlt⟩ | ⟨hsum, hlt⟩
      · refine .inl ⟨w.timer.inc + r.sec, hsum, .inl ⟨{ callback' with start_time := now },
          (at_returns ho hn).mpr ?_, hsec', hloop'⟩⟩
        rw [hkey, if_pos ⟨hloop'.trans hloop, rfl, rfl⟩]
        exact ⟨rfl, Lua.intKey_lt.mpr hlt⟩
      · refine .inr ⟨hsum, fun p callback hat' => ?_⟩
        rw [at_returns ho hn, hkey] at hat'
        split at hat'
        · exact absurd (Lua.intKey_lt.mp hat'.2) (Int64.lt_asymm hlt)
        · exact hat'.1 (hleft _ _ hat'.2)
    · obtain ⟨hloop', -⟩ := hdone.place hp hat
      obtain ⟨hloop, hk, -⟩ := hdone
      refine ⟨k, hinv, by simpa using hle, .inr (.inr ⟨hloop, hk, .inl fun p callback hat' => ?_⟩)⟩
      rw [at_returns ho hn, if_neg (by simp [hloop', hloop])] at hat'
      exact hat'.1 (hleft _ _ hat'.2)
  · refine (h.onTime r hr).same (reschedule_inc ..) rfl fun p callback => ?_
    rw [at_returns ho hn, if_neg fun hnew => he hnew.2.2.symm]
    refine and_iff_right_of_imp fun hat' hp' => he ?_
    subst hp'
    obtain ⟨tick, hm, hinc, hcur⟩ := hat'
    obtain rfl := ho.unique hm (List.mem_of_getElem? hn) hinc
    exact (Prod.mk.inj (Option.some.inj hcur)).1

end

/-- A registration that is watched was so before, or is made in this step. -/
theorem Watched.of_does {r : Reg} (hr : Watched w' r) (hdoes : Does w op w') :
    Watched w r ∨ r.tag = w.tags ∧ r.inc = w.timer.inc ∧
      ∃ f now, op = .register (.int r.sec) f r.loop now := by
  rcases hdoes.log with hlog | ⟨e, hlog, hreg⟩
  · exact .inl ⟨hlog ▸ hr.mem, hlog ▸ hr.kept⟩
  · have hkept := hr.kept
    have hmem := hr.mem
    rw [hlog] at hkept hmem
    rcases List.mem_append.mp hmem with hmem | hmem
    · exact .inl ⟨hmem, hkept.of_append⟩
    · obtain ⟨htag, -, hinc, f, now, hop, -⟩ := hreg _ _ _ _ _ (List.mem_singleton.mp hmem).symm
      exact .inr ⟨htag, hinc, f, now, hop⟩

theorem Scheduled.does (h : Scheduled w) (hdoes : Does w op w') (hl : w.Legal op)
    (hb : w.Below op) (hquiet : op.Quiet) (hprompt : w.Prompt op)
    (htags : w'.tags ≤ 2147483646) : Scheduled w' := by
  have ho := h.issued.placed.orderly
  have hissued : w.Spare op → w.Vacant op → Issued w' := fun hs hv =>
    h.issued.does hdoes ⟨hl, hb, hs⟩ hv
  have hnumbered := h.numbered.does hdoes htags
  have hpos : ∀ {r}, Watched w r → r.tag < w.tags ∧ 0 < r.sec := fun hr =>
    (h.numbered.registered _ _ _ _ _ hr.mem).2
  have hold : ∀ {r}, Watched w' r → (∀ sec f loop now, op ≠ .register sec f loop now) →
      Watched w r := fun hr hop => (hr.of_does hdoes).resolve_right fun ⟨_, _, f, now, e⟩ =>
    hop _ _ _ _ e
  cases hdoes with
  | nothing => exact h
  | @register sec f loop now t hsec ht =>
    refine ⟨hissued (.inl htags) (.inl htags), hnumbered, fun r hr => ?_⟩
    have hlog : ∀ tag, invocations tag (w.log ++
        [.registered w.tags (nextIdx w.timer.timer_idx) w.timer.inc sec loop]) =
          invocations tag w.log := fun tag => by
      rw [invocations_append]
      exact List.append_nil _
    rcases hr.of_does (.register hsec ht) with hr' | ⟨htag, hinc, f', now', hop⟩
    · obtain ⟨t', e, hinc, -⟩ := register_of_pos w.timer hsec w.tags f loop now
      obtain ⟨rfl, -⟩ := Prod.mk.inj (Option.some.inj (e.symm.trans ht))
      exact (h.onTime r hr').same hinc (hlog _)
        (at_register_old h.numbered hsec ht htags (hpos hr').1)
    · obtain ⟨tag, inc, sec', loop'⟩ := r
      obtain rfl : tag = w.tags := htag
      obtain rfl : inc = w.timer.inc := hinc
      obtain ⟨rfl, rfl, rfl, rfl⟩ := Op.register.inj hop
      exact h.register hsec ht htags (hlog _)
  | unregister idx =>
    refine ⟨hissued trivial trivial, hnumbered, fun r hr => ?_⟩
    refine (h.onTime r (hold hr fun _ _ _ _ => nofun)).same (unregister_inc ..) ?_ fun p callback =>
      at_unregister
    rw [invocations_append]
    exact List.append_nil _
  | idle hslot =>
    refine ⟨hissued trivial trivial, hnumbered, fun r hr => ?_⟩
    exact h.start (hold hr fun _ _ _ _ => nofun) hl hb hprompt (.idle hslot) (due_inc _) rfl
  | start hslot =>
    refine ⟨hissued trivial trivial, hnumbered, fun r hr => ?_⟩
    exact h.start (hold hr fun _ _ _ _ => nofun) hl hb hprompt (.start hslot) (due_inc _) rfl
  | invoke hn hidx =>
    refine ⟨hissued trivial trivial, hnumbered, fun r hr => ?_⟩
    exact h.invoke (hold hr fun _ _ _ _ => nofun) hn hidx
  | returns now hn =>
    refine ⟨hissued trivial trivial, hnumbered, fun r hr => ?_⟩
    have hr := hold hr fun _ _ _ _ => nofun
    exact h.returns hr (hpos hr).2 hn
  | raises hn => exact hquiet.elim
  | finish hn =>
    refine ⟨hissued trivial trivial, hnumbered, fun r hr => ?_⟩
    exact (h.onTime r (hold hr fun _ _ _ _ => nofun)).same rfl rfl fun p callback =>
      at_finish ho hn

/-! ## Over a run -/

/-- Delays are integers, `inc` stays below the largest one, no callback raises, and a tick starts
when the loop timers of those before it have returned. -/
def World.Steady (w : World Number Int64 NumKey F) (op : Op Number F) : Prop :=
  w.Below op ∧ op.Integral ∧ op.Quiet ∧ w.Prompt op

instance (w : World Number Int64 NumKey F) (op : Op Number F) : Decidable (w.Steady op) :=
  inferInstanceAs (Decidable (_ ∧ _ ∧ _ ∧ _))

theorem scheduled_new (interval : Option Nat) :
    Scheduled (.new interval : World Number Int64 NumKey F) where
  issued := issued_new interval
  numbered := numbered_new interval
  onTime r hr := by
    have hmem := hr.mem
    cases hmem

theorem scheduled_of_reach {interval : Option Nat}
    (h : Machine.Reach World.exec (fun w op => w.Legal op ∧ w.Steady op) (.new interval) w)
    (hb : w.tags ≤ 2147483646) : Scheduled w :=
  invariant_of_does (fun w => w.tags ≤ 2147483646 → Scheduled w) h
    (fun _ => scheduled_new interval)
    (fun _ _ _ h ⟨hl, hbelow, _, hquiet, hprompt⟩ hdoes hb =>
      (h (hdoes.tags_le.trans hb)).does hdoes hl hbelow hquiet hprompt hb) hb

/-- The next due tick is still to come, unless a tick has the callback still to call. -/
theorem OnTime.next {r : Reg} (h : OnTime w r) (hsec : 0 < r.sec)
    (hn : ∀ tick ∈ w.ticks, r.tag + 1 ∉ tick.todo) :
    ∃ k, (invocations r.tag w.log).map Int64.toInt = (List.range k).map (fun j => r.due (j + 1)) ∧
      r.due k ≤ w.timer.inc.toInt ∧
        ((r.loop = true ∨ k = 0) ∧ w.timer.inc.toInt < r.due (k + 1) ∨ r.loop = false ∧ k = 1) := by
  have hpos : 0 < r.sec.toInt := by simpa [Int64.lt_iff_toInt_lt] using hsec
  obtain ⟨k, hinv, hle, hcase⟩ := h
  refine ⟨k, hinv, hle, ?_⟩
  rcases hcase with ⟨hk, hwait⟩ | ⟨hloop, hdue, -⟩ | ⟨hloop, hk, -⟩
  · refine .inl ⟨hk, ?_⟩
    rcases hwait with ⟨inc, hdue, ⟨callback, hat, -⟩ | ⟨⟨callback, hat, -⟩, -⟩⟩ | ⟨hlost, -⟩
    · have hlt := Int64.lt_iff_toInt_lt.mp (Lua.intKey_lt.mp hat.2)
      omega
    · obtain ⟨tick, hm, -, hi, -⟩ := hat
      exact absurd hi (hn tick hm)
    · have hmax := Int64.toInt_le w.timer.inc
      have e : Int64.maxValue.toInt = 2 ^ 63 - 1 := rfl
      omega
  · refine .inl ⟨.inl hloop, ?_⟩
    rw [Reg.due_succ]
    omega
  · exact .inr ⟨hloop, hk⟩

/-- In a steady run of fewer than 2147483646 registrations a timer registered at tick `t` with delay
`n` and never unregistered has been invoked, where no tick under way has it still to call, once, at
`t + n`, or, if it is a loop timer, at `t + n`, `t + 2n`, … up to now, and at no other tick. -/
theorem invoked_on_schedule {interval : Option Nat} {w : World Number Int64 NumKey F}
    (h : Machine.Reach World.exec (fun w op => w.Legal op ∧ w.Steady op) (.new interval) w)
    (hb : w.tags < 2147483646) (tag idx : Nat) (t n : Int64) (loop : Bool)
    (hr : .registered tag idx t (.int n) loop ∈ w.log) (hu : NeverUnregistered tag idx w.log)
    (hn : ∀ tick ∈ w.ticks, idx ∉ tick.todo) :
    (loop = false → (invocations tag w.log).map Int64.toInt =
      if t.toInt + n.toInt ≤ w.timer.inc.toInt then [t.toInt + n.toInt] else []) ∧
    (loop = true → (invocations tag w.log).map Int64.toInt =
      (List.range ((w.timer.inc.toInt - t.toInt) / n.toInt).toNat).map
        fun k : Nat => t.toInt + (k + 1) * n.toInt) := by
  have hs := scheduled_of_reach h hb.le
  obtain ⟨rfl, -, hpos⟩ := hs.numbered.registered _ _ _ _ _ hr
  have hpos' : 0 < n.toInt := by simpa [Int64.lt_iff_toInt_lt] using show 0 < n from hpos
  obtain ⟨k, hinv, hle, hcase⟩ := (hs.onTime ⟨tag, t, n, loop⟩ ⟨hr, hu⟩).next hpos hn
  simp only [Reg.due] at hinv hle hcase
  rw [hinv]
  constructor
  · rintro rfl
    rcases hcase with ⟨hk, hlt⟩ | ⟨-, rfl⟩
    · obtain rfl := hk.resolve_left nofun
      rw [if_neg (by simpa using hlt)]
      rfl
    · rw [if_pos (by simpa using hle)]
      simp
  · rintro rfl
    have hlt := (hcase.resolve_right (by simp)).2
    have hk : (w.timer.inc.toInt - t.toInt) / n.toInt = k := by
      rw [Int.ediv_eq_iff_of_pos hpos']
      push_cast at hlt
      constructor <;> linarith
    rw [hk, Int.toNat_natCast]
    push_cast
    rfl

/-- A loop timer and one that runs once; the callback of the one that runs once yields in the second
tick, and returns in the third, when the loop timer is called again. -/
def threeTicks : List (Op Number Unit) :=
  [.register (.int 1) () true 0, .register (.int 2) () false 0, .start [1], .invoke 0, .returns 0 1,
    .finish 0, .start [1, 2], .invoke 0, .returns 0 2, .invoke 0, .start [1], .invoke 1, .returns 0 3,
    .finish 0, .returns 0 3, .finish 0]

theorem invoked_on_schedule_sample :
    (invocations 0 (threeTicks.foldl World.exec (.new none : World Number Int64 NumKey Unit)).log).map
      Int64.toInt = [1, 2, 3] ∧
    (invocations 1 (threeTicks.foldl World.exec (.new none : World Number Int64 NumKey Unit)).log).map
      Int64.toInt = [2] := by
  have h := reach_of_checked (K := NumKey) World.Steady none threeTicks (by decide +kernel)
    (by decide +kernel)
  constructor
  · exact ((invoked_on_schedule h (by decide +kernel) 0 1 0 1 true (by decide +kernel)
      (neverUnregistered_of_not_mem (by decide +kernel)) (by decide +kernel)).2 rfl).trans
        (by decide +kernel)
  · exact ((invoked_on_schedule h (by decide +kernel) 1 2 0 2 false (by decide +kernel)
      (neverUnregistered_of_not_mem (by decide +kernel)) (by decide +kernel)).1 rfl).trans
        (by decide +kernel)

/-- A loop timer of every tick whose callback yields in the first and returns in the second. -/
def sleeping : List (Op Number Unit) :=
  [.register (.int 1) () true 0, .start [1], .invoke 0, .start [], .returns 0 2, .finish 0]

/-- It is not called in the second tick. -/
theorem sleeping_skips :
    ¬ ∀ w : World Number Int64 NumKey Unit,
      Machine.Reach World.exec (fun w op => w.Legal op ∧ op.Integral ∧ op.Quiet) (.new none) w →
      w.tags < 2147483646 → ∀ tag idx (t n : Int64),
        .registered tag idx t (.int n) true ∈ w.log → NeverUnregistered tag idx w.log →
          (∀ tick ∈ w.ticks, idx ∉ tick.todo) →
            (invocations tag w.log).map Int64.toInt =
              (List.range ((w.timer.inc.toInt - t.toInt) / n.toInt).toNat).map
                fun k : Nat => t.toInt + (k + 1) * n.toInt := by
  intro hall
  have h := reach_of_checked (K := NumKey) (fun _ op => op.Integral ∧ op.Quiet) none sleeping
    (by decide +kernel) (by decide +kernel)
  have hskipped := hall _ h (by decide +kernel) 0 1 0 1 (by decide +kernel)
    (neverUnregistered_of_not_mem (by decide +kernel)) (by decide +kernel)
  exact absurd hskipped (by decide +kernel)

end SkynetHotfix.Timer.Overlap
