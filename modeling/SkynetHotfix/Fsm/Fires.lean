import SkynetHotfix.Fsm.Basic
import SkynetHotfix.Lib.Last

/-!
# The transition that an event takes

What was last added or deleted for a pair of a state and an event is its `current` transition, and
`expected` is what an event should do: take the transition of its pair, else one for any state,
else one for any event, else run the exception handler in force, the default one of which stays in
the state.

A machine keeps what was last added or deleted under a spelling (`Kept`, of every run), and the
handler that was added last. So three things can go wrong, and `Fair` rules
them out where an event is fired (`fires_meet`): two pairs are spelled alike, an added handler has
been deleted, or the default handler is run in another state than the first.
-/

namespace SkynetHotfix.Fsm

open Function (update)
open Last (last lastAt)

variable {A : Type} {p : Str × Str} {event : Str}

/-- A transition that was added for a pair; `none` where it was deleted. -/
structure Change (A : Type) where
  pair : Str × Str
  entry : Option (Entry A)

/-- A call of a method. -/
inductive Op (A : Type)
  | add (t : List (Row A))
  | delete (t : List (Str × Str))
  | set (s : Str)
  | silent
  | fire (event : Str)

/-- The pairs for which a call adds or deletes a transition. -/
def Op.changes : Op A → List (Change A)
  | .add t => t.map fun v => ⟨(v.oldState, v.event), some ⟨v.newState, .given v.action⟩⟩
  | .delete t => t.map fun v => ⟨v, none⟩
  | _ => []

/-- A machine, the state in which it was made, and what was added and deleted. -/
structure World (A : Type) where
  machine : Machine A
  start : Str
  log : List (Change A)

namespace World

/-- `fsm.new` -/
def new (t : List (Row A)) : Option (World A) := do
  let row ← t.head?
  let machine ← Machine.new t
  some ⟨machine, row.oldState, (Op.add t).changes⟩

/-- One call. -/
def exec (w : World A) (op : Op A) : World A :=
  let machine := match op with
    | .add t => (w.machine.add t).2
    | .delete t => (w.machine.delete t).2
    | .set s => w.machine.set s
    | .silent => w.machine.silent
    | .fire event => ((w.machine.fire event).map Prod.snd).getD w.machine
  { w with machine, log := w.log ++ op.changes }

end World

/-! ## What is expected -/

/-- The transition last added for a pair, if it has not been deleted since. -/
def current (log : List (Change A)) (p : Str × Str) : Option (Entry A) :=
  (lastAt Change.pair p log).bind Change.entry

/-- What the event is to do: the state it leads to and the action it runs. -/
def expected (w : World A) (event : Str) : Entry A :=
  ((current w.log (w.machine.state, event)).or ((current w.log (any, event)).or
    (current w.log (w.machine.state, any)))).getD
      ((current w.log (any, any)).getD ⟨w.machine.state, .exception⟩)

/-- It does so. -/
def Meets (w : World A) (event : Str) : Prop :=
  ∃ m, w.machine.fire event = some ((m.call (expected w event).action).1, m) ∧
    m.state = (expected w event).newState

/-- What holds of every event that the calls fire, where it is fired. -/
def EachFire (P : World A → Str → Prop) : World A → List (Op A) → Prop
  | _, [] => True
  | w, op :: ops => (∀ event, op = .fire event → P w event) ∧ EachFire P (w.exec op) ops

/-- What was last added or deleted under the spelling of the pair was so for the pair itself; or it
was deleted, and the pair has no transition either. -/
def Clear (log : List (Change A)) (p : Str × Str) : Prop :=
  ∀ c, lastAt (fun c => spell c.pair) (spell p) log = some c →
    c.pair = p ∨ c.entry = none ∧ current log p = none

/-- The pairs that the event is looked up for are clear, each if those before have no transition; and
if the event comes to the default handler, no other has been added and the machine is in
its first state. -/
structure Fair (w : World A) (event : Str) : Prop where
  pair : Clear w.log (w.machine.state, event)
  anyState : current w.log (w.machine.state, event) = none → Clear w.log (any, event)
  anyEvent : current w.log (w.machine.state, event) = none →
    current w.log (any, event) = none → Clear w.log (w.machine.state, any)
  handler : current w.log (w.machine.state, event) = none → current w.log (any, event) = none →
    current w.log (w.machine.state, any) = none → current w.log (any, any) = none →
      (∀ c ∈ w.log, c.pair = (any, any) → c.entry = none) ∧ w.machine.state = w.start

/-! ## What a machine keeps -/

/-- The entry under `*.*`, by what was added for it. -/
def handler (start : Str) (log : List (Change A)) : Entry A :=
  (last (fun c => if c.pair = (any, any) then c.entry else none) log).getD ⟨start, .exception⟩

structure Kept (stt : Key → Option (Entry A)) (start : Str) (log : List (Change A)) : Prop where
  spelled : ∀ k ≠ unknown, stt (.str k) = (lastAt (fun c => spell c.pair) k log).bind Change.entry
  unknown : stt (.str unknown) = some (handler start log)

theorem Kept.change {stt stt' : Key → Option (Entry A)} {start : Str} {log : List (Change A)}
    {c : Change A} (h : Kept stt start log)
    (hs : ∀ k, stt' (.str k) =
      if k = spell c.pair ∧ (c.entry = none → k ≠ Fsm.unknown) then c.entry else stt (.str k)) :
    Kept stt' start (log ++ [c]) := by
  constructor
  · intro k hk
    rw [hs, lastAt, Last.last_append, Last.last_singleton]
    by_cases hc : k = spell c.pair
    · rw [if_pos ⟨hc, fun _ => hk⟩, if_pos hc.symm]
      rfl
    · rw [if_neg fun hc' => hc hc'.1, if_neg (Ne.symm hc), Option.none_or]
      exact h.spelled k hk
  · rw [hs, handler, Last.last_append, Last.last_singleton, h.unknown]
    by_cases hc : c.pair = (any, any)
    · rw [if_pos hc]
      cases hentry : c.entry with
      | none =>
        rw [if_neg fun hc' => hc'.2 rfl rfl, Option.none_or]
        rfl
      | some e =>
        rw [if_pos ⟨(spell_eq_unknown.mpr hc).symm, by simp⟩]
        rfl
    · rw [if_neg hc, if_neg fun hc' => hc (spell_eq_unknown.mp hc'.1.symm), Option.none_or]
      rfl

theorem Kept.add {m : Machine A} {start : Str} {log : List (Change A)}
    (h : Kept m.stt start log) (t : List (Row A)) :
    Kept (m.add t).2.stt start (log ++ (Op.add t).changes) := by
  simp only [Machine.add, Op.changes]
  induction t generalizing m log with
  | nil => simpa using h
  | cons v t ih =>
    rw [List.foldl_cons, List.map_cons, List.append_cons]
    refine ih (h.change fun k => ?_)
    show update _ _ _ _ = _
    by_cases hk : k = spell (v.oldState, v.event)
    · subst hk
      rw [if_pos ⟨rfl, by simp⟩]
      exact Function.update_self ..
    · rw [if_neg fun hk' => hk hk'.1]
      exact Function.update_of_ne (fun e => hk (Key.str.inj e)) ..

/-- A handler that is deleted stays. -/
theorem Machine.deleteRow_any (m : Machine A) {v : Str × Str} (hv : v.1 = any ∧ v.2 = any)
    (k : Str) : (m.deleteRow v).stt (.str k) = m.stt (.str k) := by
  rw [Machine.deleteRow, if_pos hv]
  cases m.silence with
  | true => simp
  | false => simp [Machine.print]

theorem Kept.delete {m : Machine A} {start : Str} {log : List (Change A)}
    (h : Kept m.stt start log) (t : List (Str × Str)) :
    Kept (m.delete t).2.stt start (log ++ (Op.delete t : Op A).changes) := by
  simp only [Machine.delete, Op.changes]
  induction t generalizing m log with
  | nil => simpa using h
  | cons v t ih =>
    rw [List.foldl_cons, List.map_cons, List.append_cons]
    refine ih (h.change fun k => ?_)
    by_cases hv : v.1 = any ∧ v.2 = any
    · have hspell : spell v = Fsm.unknown := spell_eq_unknown.mpr (Prod.ext hv.1 hv.2)
      have hno : ¬ (k = spell v ∧ ((none : Option (Entry A)) = none → k ≠ Fsm.unknown)) :=
        fun hk => hk.2 rfl (hk.1.trans hspell)
      exact (m.deleteRow_any hv k).trans (if_neg hno).symm
    · have hspell : spell v ≠ Fsm.unknown := fun e =>
        hv ⟨congrArg Prod.fst (spell_eq_unknown.mp e), congrArg Prod.snd (spell_eq_unknown.mp e)⟩
      rw [Machine.deleteRow, if_neg hv]
      show update _ _ _ _ = _
      by_cases hk : k = spell v
      · subst hk
        rw [if_pos ⟨rfl, fun _ => hspell⟩]
        exact Function.update_self ..
      · rw [if_neg fun hk' => hk hk'.1]
        exact Function.update_of_ne (fun e => hk (Key.str.inj e)) ..

@[simp] theorem Machine.stt_call (m : Machine A) (act : Action A) : (m.call act).2.stt = m.stt := by
  unfold Machine.call Machine.exception
  split
  · rfl
  · rfl
  · split <;> rfl

theorem Machine.stt_fire (m : Machine A) (event : Str) :
    (((m.fire event).map Prod.snd).getD m).stt = m.stt := by
  cases hf : (m.find event).1 with
  | none => simp [Machine.fire, hf]
  | some act => simp [Machine.fire, hf, Machine.stt_call]

/-- Every call keeps it. -/
theorem Kept.exec {w : World A} (h : Kept w.machine.stt w.start w.log) (op : Op A) :
    Kept (w.exec op).machine.stt w.start (w.exec op).log := by
  cases op with
  | add t => exact h.add t
  | delete t => exact h.delete t
  | set s => simpa [World.exec, Op.changes, Machine.set] using h
  | silent => simpa [World.exec, Op.changes, Machine.silent] using h
  | fire event => simpa [World.exec, Op.changes, Machine.stt_fire] using h

theorem kept_start (start : Str) :
    Kept (A := A) (update (fun _ => none) (.str unknown) (some ⟨start, .exception⟩)) start [] where
  spelled k hk := by simp [hk, lastAt]
  unknown := by simp [handler]

theorem kept_new {t : List (Row A)} {w : World A} (hw : World.new t = some w) :
    Kept w.machine.stt w.start w.log := by
  cases t with
  | nil => cases hw
  | cons row t =>
    cases hw
    exact Kept.add (m := ⟨row.oldState, _, [], false, []⟩) (kept_start row.oldState) (row :: t)

/-! ## Firing -/

/-- Under the spelling of a clear pair is the transition of the pair. -/
theorem Kept.lookup {stt : Key → Option (Entry A)} {start : Str} {log : List (Change A)}
    (h : Kept stt start log) (hp : p ≠ (any, any)) (hc : Clear log p) :
    stt (.str (spell p)) = current log p := by
  rw [h.spelled _ fun e => hp (spell_eq_unknown.mp e)]
  have href : ∀ c ∈ log, c.pair = p → spell c.pair = spell p := fun c _ e => e ▸ rfl
  cases hl : lastAt (fun c => spell c.pair) (spell p) log with
  | none =>
    have hnone : lastAt Change.pair p log = none :=
      Last.lastAt_eq_none.mpr fun c hc e => Last.lastAt_eq_none.mp hl c hc (href c hc e)
    rw [current, hnone]
  | some c =>
    rcases hc c hl with hpair | ⟨hentry, hnone⟩
    · rw [current, Last.lastAt_of_refines href hl hpair]
    · rw [hnone]
      exact hentry

/-- Where no handler was added, or the last one has not been deleted, the one in force is found. -/
theorem handler_eq {start state : Str} {log : List (Change A)}
    (h : current log (any, any) = none →
      (∀ c ∈ log, c.pair = (any, any) → c.entry = none) ∧ state = start) :
    handler start log = (current log (any, any)).getD ⟨state, .exception⟩ := by
  cases hcur : current log (any, any) with
  | none =>
    obtain ⟨hall, rfl⟩ := h hcur
    have hnone : last (fun c => if c.pair = (any, any) then c.entry else none) log = none := by
      refine Last.last_eq_none.mpr fun c hc => ?_
      split
      · exact hall c hc ‹_›
      · rfl
    rw [handler, hnone]
  | some e =>
    obtain ⟨c, hc, he⟩ := Option.bind_eq_some_iff.mp hcur
    rw [handler, Last.last_of_lastAt hc he]
    rfl

theorem Machine.find_fst (m : Machine A) (event : Str) : (m.find event).1 =
    (m.stt (.str (spell (m.state, event)))).or ((m.stt (.str (spell (any, event)))).or
      ((m.stt (.str (spell (m.state, any)))).or (m.stt (.str unknown)))) := by
  have hany : m.state ++ anyevent = spell (m.state, any) :=
    (List.append_assoc m.state separator any).symm
  have hevent : m.state ++ separator ++ event = spell (m.state, event) := rfl
  have hstate : anystate ++ event = spell (any, event) := rfl
  rw [Machine.find, hany, hevent, hstate]
  cases m.stt (.str (spell (m.state, event))) with
  | some act => rfl
  | none =>
    cases m.stt (.str (spell (any, event))) with
    | some act => rfl
    | none => cases m.stt (.str (spell (m.state, any))) <;> rfl

theorem Machine.call_fst (m m' : Machine A) (act : Action A) :
    (m.call act).1 = (m'.call act).1 := by
  unfold Machine.call
  split <;> rfl

theorem Machine.state_call (m : Machine A) (act : Action A) : (m.call act).2.state = m.state := by
  unfold Machine.call Machine.exception
  split
  · rfl
  · rfl
  · split <;> rfl

/-- It is enough to find the expected entry. -/
theorem meets_of_find {w : World A} (h : (w.machine.find event).1 = some (expected w event)) :
    Meets w event := by
  let m : Machine A := { w.machine with
    str := (w.machine.find event).2
    state := (expected w event).newState }
  have hfire : w.machine.fire event = some (m.call (expected w event).action) := by
    rw [Machine.fire]
    show (w.machine.find event).1.map _ = _
    rw [h]
    rfl
  refine ⟨(m.call (expected w event).action).2, ?_, Machine.state_call ..⟩
  rw [hfire, Machine.call_fst _ m]

/-- Where it is fair, an event does what it is to do. -/
theorem Kept.meets {w : World A} (h : Kept w.machine.stt w.start w.log)
    (hstate : w.machine.state ≠ any) (hevent : event ≠ any) (hf : Fair w event) :
    Meets w event := by
  have hne : ∀ {s e : Str}, s ≠ any ∨ e ≠ any → (s, e) ≠ (any, any) := fun hse e =>
    hse.elim (fun hs => hs (congrArg Prod.fst e)) fun he => he (congrArg Prod.snd e)
  refine meets_of_find ?_
  rw [Machine.find_fst, h.lookup (hne (.inl hstate)) hf.pair, expected]
  cases h₁ : current w.log (w.machine.state, event) with
  | some e => rfl
  | none =>
    rw [h.lookup (hne (.inr hevent)) (hf.anyState h₁), Option.none_or, Option.none_or]
    cases h₂ : current w.log (any, event) with
    | some e => rfl
    | none =>
      rw [h.lookup (hne (.inl hstate)) (hf.anyEvent h₁ h₂), Option.none_or, Option.none_or]
      cases h₃ : current w.log (w.machine.state, any) with
      | some e => rfl
      | none =>
        rw [h.unknown, handler_eq (hf.handler h₁ h₂ h₃)]
        rfl

/-- In every run in which each event is fired where it is fair, each does what it is to do. -/
theorem fires_meet (t : List (Row A)) (w : World A) (hw : World.new t = some w) (ops : List (Op A))
    (hnames : EachFire (fun w event => w.machine.state ≠ any ∧ event ≠ any) w ops)
    (hfair : EachFire Fair w ops) : EachFire Meets w ops := by
  have key : ∀ {w : World A} {ops : List (Op A)}, Kept w.machine.stt w.start w.log →
      EachFire (fun w event => w.machine.state ≠ any ∧ event ≠ any) w ops →
      EachFire Fair w ops → EachFire Meets w ops := by
    intro w ops
    induction ops generalizing w with
    | nil => exact fun _ _ _ => trivial
    | cons op ops ih =>
      intro h hn hf
      refine ⟨fun event e => ?_, ih (h.exec op) hn.2 hf.2⟩
      exact h.meets (hn.1 event e).1 (hn.1 event e).2 (hf.1 event e)
  exact key (kept_new hw) hnames hfair

/-- An event that has a transition, and in the first state the same event when it has none. -/
theorem fires_meet_sample : ∃ w : World Nat, World.new [⟨[97], [101], [98], some 0⟩] = some w ∧
    EachFire Meets w [.fire [101], .delete [([97], [101])], .set [97], .fire [101]] := by
  refine ⟨_, rfl, fires_meet [⟨[97], [101], [98], some 0⟩] _ rfl _ ?_ ?_⟩
  · refine ⟨fun _ e => ?_, fun _ e => ?_, fun _ e => ?_, fun _ e => ?_, trivial⟩ <;> cases e <;>
      decide
  · refine ⟨fun _ e => ?_, fun _ e => ?_, fun _ e => ?_, fun _ e => ?_, trivial⟩ <;> cases e
    · refine ⟨fun c hc => .inl ?_, fun h => ?_, fun h => ?_, fun h => ?_⟩
      · exact Option.some.inj hc ▸ rfl
      · exact absurd h (by decide)
      · exact absurd h (by decide)
      · exact absurd h (by decide)
    · refine ⟨fun c hc => .inl ?_, fun _ c hc => ?_, fun _ _ c hc => ?_, fun _ _ _ _ => ⟨?_, rfl⟩⟩
      · exact Option.some.inj hc ▸ rfl
      · cases hc
      · cases hc
      · decide

/-- With the default handler an unknown event leads back to the first state. -/
theorem unknown_leaves_state : ¬ ∀ (t : List (Row Nat)) (w : World Nat), World.new t = some w →
    ∀ ops, EachFire (fun w event => w.machine.state ≠ any ∧ event ≠ any) w ops →
      EachFire Meets w ops := by
  intro h
  obtain ⟨-, hmeets, -⟩ := h [⟨[97], [101], [98], some 0⟩] _ rfl [.fire [101], .fire [120]]
    ⟨fun _ e => by cases e; decide, fun _ e => by cases e; decide, trivial⟩
  obtain ⟨m, hfire, hstate⟩ := hmeets [120] rfl
  have hback := congrArg (Option.map fun r => r.2.state) hfire
  rw [Option.map_some, hstate] at hback
  revert hback
  decide

end SkynetHotfix.Fsm
