import Mathlib.Data.List.Perm.Basic
import SkynetHotfix.Skynet.Coroutines

/-!
# Each answer resumes the coroutine that waits for it

Every coroutine is in one place only, and the tables say which (`Kept`). So whatever messages come
and whatever the coroutines do, each session resumes the coroutine that asked, there where it asked,
and once at most (`resumed_once`).
-/

namespace SkynetHotfix.Skynet.Coroutines

open Function (update update_apply)

/-- The session that a coroutine waits for. -/
def Place.session : Place → Option Nat
  | .timer session => some session
  | .call session => some session
  | .sleep session => some session
  | .wait session _ => some session
  | _ => none

namespace Threads

/-- The coroutines that have asked for a session, those resumed for it, and who waits for it. -/
def asks (t : Threads) (session : Nat) : List Nat :=
  (t.asked.filter (·.1 = session)).map (·.2)

def resumes (t : Threads) (session : Nat) : List Nat :=
  (t.resumed.filter (·.1 = session)).map (·.2)

def waiters (t : Threads) (session : Nat) : List Nat :=
  match t.session_id_coroutine session with
  | some (.co c) => [c]
  | _ => []

variable {t : Threads}

theorem running_co_create {pick : Nat} : (t.co_create pick).2.running = t.running := by
  rw [co_create]
  split <;> rfl

theorem running_error_dispatch {error_session error_source : Nat} :
    (t.error_dispatch error_session error_source).running = t.running := by
  rw [error_dispatch]
  split
  · rfl
  · split <;> rfl

theorem free_co_create {pick : Nat} : (t.co_create pick).2.Free ↔ t.Free := by
  rw [co_create]
  split <;> rfl

theorem resume_dispatched {c : Nat} (h : t.place c = .dispatched) :
    t.resume c .start = t.run c := by
  unfold resume
  rw [h]

structure Kept (t : Threads) : Prop where
  made : ∀ c, t.made ≤ c → t.place c = .unmade
  waiting : ∀ session c, t.session_id_coroutine session = some (.co c) ↔
    (t.place c).session = some session
  sleeping : ∀ c session, t.sleep_session c = some session ↔
    t.place c = .sleep session ∨ t.place c = .wait session c
  waits : ∀ c session co, t.place c = .wait session co → co = c
  forks : t.fork_queue.Nodup ∧ ∀ c ∈ t.fork_queue, t.place c = .forked
  pool : t.coroutine_pool.Nodup ∧ ∀ c ∈ t.coroutine_pool, t.place c = .pooled
  running : ∀ c, t.running = some c ↔ t.place c = .running
  watched : ∀ session ∈ t.watching_session.map (·.1), ∃ c, t.place c = .call session
  /-- An error is for a call. -/
  errors : ∀ session ∈ t.error_queue, ∀ c, (t.place c).session = some session →
    t.place c = .call session
  turns : ∀ session, t.asks session = t.resumes session ++ t.waiters session
  crashed : t.crashed = false

@[simp, grind =] theorem place_put (c : Nat) (p : Place) (x : Nat) :
    (t.put c p).place x = if x = c then p else t.place x :=
  update_apply ..

@[simp, grind =] theorem place_ask (c : Nat) (p : Nat → Place) (x : Nat) :
    (t.ask c p).place x = if x = c then p t.genid else t.place x :=
  update_apply ..

@[simp, grind =] theorem session_id_coroutine_ask (c : Nat) (p : Nat → Place) (session : Nat) :
    (t.ask c p).session_id_coroutine session =
      if session = t.genid then some (.co c) else t.session_id_coroutine session :=
  update_apply ..

@[simp, grind =] theorem place_answer (session c : Nat) (w : Option Waiter) :
    (t.answer session c w).place = t.place :=
  rfl

@[simp, grind =] theorem session_id_coroutine_answer (session c : Nat) (w : Option Waiter)
    (x : Nat) : (t.answer session c w).session_id_coroutine x =
      if x = session then w else t.session_id_coroutine x :=
  update_apply ..

namespace Kept

/-- A coroutine goes between places where it waits for nothing. -/
theorem switch (h : Kept t) {c : Nat} {p : Place} {r : Option Nat} (hmade : c < t.made)
    (hold : (t.place c).session = none) (hnew : p.session = none) (hfork : c ∉ t.fork_queue)
    (hpool : c ∉ t.coroutine_pool)
    (hr : ∀ x, r = some x ↔ (if x = c then p else t.place x) = .running) :
    Kept { t.put c p with running := r } where
  made x hx := by
    have hx' := h.made x hx
    have hne : x ≠ c := by
      rintro rfl
      exact absurd hx (Nat.not_le.mpr hmade)
    simpa [hne] using hx'
  waiting session x := by
    have hx := h.waiting session x
    show t.session_id_coroutine session = _ ↔ ((t.put c p).place x).session = _
    grind
  sleeping x session := by
    have hx := h.sleeping x session
    show t.sleep_session x = _ ↔ (t.put c p).place x = _ ∨ (t.put c p).place x = _
    grind [Place.session]
  waits x session co hx := by
    have hwaits := h.waits x session co
    change (t.put c p).place x = _ at hx
    grind [Place.session]
  forks := by
    refine ⟨h.forks.1, fun x hx => ?_⟩
    have hplace := h.forks.2 x hx
    show (t.put c p).place x = _
    grind [Threads.put]
  pool := by
    refine ⟨h.pool.1, fun x hx => ?_⟩
    have hplace := h.pool.2 x hx
    show (t.put c p).place x = _
    grind [Threads.put]
  running x := by
    rw [place_put]
    exact hr x
  watched session hs := by
    obtain ⟨x, hx⟩ := h.watched session hs
    refine ⟨x, ?_⟩
    show (t.put c p).place x = _
    grind [Place.session]
  errors session hs x hx := by
    have hplace := h.errors session hs x
    show (t.put c p).place x = _
    change ((t.put c p).place x).session = _ at hx
    grind
  turns := h.turns
  crashed := h.crashed

/-- A coroutine that waits for nothing asks for a session. -/
theorem ask (h : Kept t) (hfree : t.Free) {c : Nat} {p : Nat → Place} {r : Option Nat}
    {ss : Nat → Option Nat} {ws : List (Nat × Nat)} (hmade : c < t.made)
    (hold : (t.place c).session = none) (hnew : (p t.genid).session = some t.genid)
    (hp : ∀ session co, p t.genid = .wait session co → co = c) (hfork : c ∉ t.fork_queue)
    (hpool : c ∉ t.coroutine_pool)
    (hr : ∀ x, r = some x ↔ x ≠ c ∧ t.place x = .running)
    (hss : ∀ x session, ss x = some session ↔ (t.ask c p).place x = .sleep session ∨
      (t.ask c p).place x = .wait session x)
    (hws : ∀ session ∈ ws.map (·.1), session ∈ t.watching_session.map (·.1) ∨
      session = t.genid ∧ p session = .call session) :
    Kept { t.ask c p with running := r, sleep_session := ss, watching_session := ws } where
  made x hx := by
    have hx' := h.made x hx
    have hne : x ≠ c := by
      rintro rfl
      exact absurd hx (Nat.not_le.mpr hmade)
    simpa [hne] using hx'
  waiting session x := by
    have hx := h.waiting session x
    have hfresh := hfree.1
    show (t.ask c p).session_id_coroutine session = _ ↔ ((t.ask c p).place x).session = _
    grind
  sleeping := hss
  waits x session co hx := by
    have hwaits := h.waits x session co
    have hnew := hp session co
    change (t.ask c p).place x = _ at hx
    grind
  forks := by
    refine ⟨h.forks.1, fun x hx => ?_⟩
    have hplace := h.forks.2 x hx
    show (t.ask c p).place x = _
    grind [Threads.ask]
  pool := by
    refine ⟨h.pool.1, fun x hx => ?_⟩
    have hplace := h.pool.2 x hx
    show (t.ask c p).place x = _
    grind [Threads.ask]
  running x := by
    show r = some x ↔ (t.ask c p).place x = _
    grind [Place.session]
  watched session hs := by
    obtain hold' | ⟨rfl, hcall⟩ := hws session hs
    · obtain ⟨x, hx⟩ := h.watched session hold'
      refine ⟨x, ?_⟩
      show (t.ask c p).place x = _
      grind [Place.session]
    · refine ⟨c, ?_⟩
      show (t.ask c p).place c = _
      rw [place_ask, if_pos rfl, hcall]
  errors session hs x hx := by
    have hplace := h.errors session hs x
    have hnot := hfree.2
    change session ∈ t.error_queue at hs
    change ((t.ask c p).place x).session = _ at hx
    show (t.ask c p).place x = _
    grind
  turns session := by
    have hturn := h.turns session
    have hfresh := hfree.1
    show ((t.asked ++ [(t.genid, c)]).filter _).map _ =
      t.resumes session ++ (t.ask c p).waiters session
    rw [List.filter_append, List.map_append]
    change t.asks session ++ _ = _
    unfold waiters at hturn ⊢
    rw [session_id_coroutine_ask]
    by_cases hs : session = t.genid
    · subst hs
      rw [hfresh] at hturn
      simp [hturn]
    · rw [hturn, if_neg hs]
      simp [Ne.symm hs]
  crashed := h.crashed

/-- A coroutine is resumed for the session it waits for. -/
theorem answer (h : Kept t) {c session : Nat} {w : Option Waiter} {ss : Nat → Option Nat}
    {ws : List (Nat × Nat)} (hrun : t.running = none)
    (hc : t.session_id_coroutine session = some (.co c)) (hw : ∀ x, w ≠ some (.co x))
    (hss : ∀ x, ss x = if x = c then none else t.sleep_session x)
    (hws : ∀ e ∈ ws, e ∈ t.watching_session ∧ t.place c ≠ .call e.1) :
    Kept { (t.answer session c w).run c with sleep_session := ss, watching_session := ws } where
  made x hx := by
    have hx' := h.made x hx
    have hsession := h.waiting session x
    have hne : x ≠ c := by
      rintro rfl
      rw [hx'] at hsession
      exact absurd (hsession.mp hc) (Option.some_ne_none _).symm
    show ((t.answer session c w).put c .running).place x = _
    rw [place_put, if_neg hne]
    exact hx'
  waiting x y := by
    have hy := h.waiting x y
    have hx := h.waiting x c
    have hs := h.waiting session y
    show (t.answer session c w).session_id_coroutine x = _ ↔
      (((t.answer session c w).put c .running).place y).session = _
    grind [Place.session]
  sleeping x y := by
    have hx := h.sleeping x y
    show ss x = _ ↔ ((t.answer session c w).put c .running).place x = _ ∨
      ((t.answer session c w).put c .running).place x = _
    grind
  waits x y co hx := by
    have hwaits := h.waits x y co
    change ((t.answer session c w).put c .running).place x = _ at hx
    grind
  forks := by
    refine ⟨h.forks.1, fun x hx => ?_⟩
    have hplace := h.forks.2 x hx
    have hsession := h.waiting session c
    show ((t.answer session c w).put c .running).place x = _
    grind [Place.session]
  pool := by
    refine ⟨h.pool.1, fun x hx => ?_⟩
    have hplace := h.pool.2 x hx
    have hsession := h.waiting session c
    show ((t.answer session c w).put c .running).place x = _
    grind [Place.session]
  running x := by
    have hx := h.running x
    show some c = some x ↔ ((t.answer session c w).put c .running).place x = _
    grind
  watched x hx := by
    obtain ⟨e, he, rfl⟩ := List.mem_map.mp hx
    obtain ⟨hmem, hne⟩ := hws e he
    obtain ⟨y, hy⟩ := h.watched e.1 (List.mem_map_of_mem hmem)
    refine ⟨y, ?_⟩
    show ((t.answer session c w).put c .running).place y = _
    grind
  errors x hx y hy := by
    have hplace := h.errors x hx y
    change (((t.answer session c w).put c .running).place y).session = _ at hy
    show ((t.answer session c w).put c .running).place y = _
    grind [Place.session]
  turns x := by
    have hturn := h.turns x
    show t.asks x = ((t.resumed ++ [(session, c)]).filter _).map _ ++
      (t.answer session c w).waiters x
    rw [List.filter_append, List.map_append]
    change t.asks x = (t.resumes x ++ _) ++ _
    unfold waiters at hturn ⊢
    rw [session_id_coroutine_answer, hturn]
    by_cases hx : x = session
    · subst hx
      rw [hc, if_pos rfl]
      cases w with
      | none => simp
      | some w =>
        cases w with
        | co y => exact absurd rfl (hw y)
        | BREAK => simp
    · rw [if_neg hx]
      simp [Ne.symm hx]
  crashed := h.crashed

/-- Queues that lose something, errors for calls, and `BREAK` that is cleared. -/
theorem queues (h : Kept t) {wq eq fq cp : List Nat} {ids : Nat → Option Waiter} {n : Nat}
    (heq : ∀ session ∈ eq, session ∈ t.error_queue ∨ session ∈ t.watching_session.map (·.1))
    (hfq : fq.Sublist t.fork_queue) (hcp : cp.Sublist t.coroutine_pool)
    (hids : ∀ session, ids session = t.session_id_coroutine session ∨
      ids session = none ∧ ∀ c, t.session_id_coroutine session ≠ some (.co c)) :
    Kept { t with
      session_id := n, wakeup_queue := wq, error_queue := eq, fork_queue := fq
      coroutine_pool := cp, session_id_coroutine := ids } where
  made := h.made
  waiting session c := by
    have hc := h.waiting session c
    have hid := hids session
    show ids session = _ ↔ (t.place c).session = _
    grind
  sleeping := h.sleeping
  waits := h.waits
  forks := ⟨h.forks.1.sublist hfq, fun c hc => h.forks.2 c (hfq.subset hc)⟩
  pool := ⟨h.pool.1.sublist hcp, fun c hc => h.pool.2 c (hcp.subset hc)⟩
  running := h.running
  watched := h.watched
  errors session hs c hc := by
    obtain hold | hwatched := heq session hs
    · exact h.errors session hold c hc
    -- the session waits in one place only
    · obtain ⟨x, hx⟩ := h.watched session hwatched
      have hthis := (h.waiting session c).mpr hc
      have hother := (h.waiting session x).mpr (by rw [hx]; rfl)
      rw [hthis] at hother
      cases hother
      exact hx
  turns session := by
    have hturn := h.turns session
    show t.asks session = t.resumes session ++ _
    rw [hturn]
    unfold waiters
    show _ ++ _ = _ ++ match ids session with
      | some (.co c) => [c]
      | _ => []
    obtain hsame | ⟨hnone, hno⟩ := hids session
    · rw [hsame]
    · rw [hnone]
      cases hw : t.session_id_coroutine session with
      | none => rfl
      | some w =>
        cases w with
        | co c => exact absurd hw (hno c)
        | BREAK => rfl
  crashed := h.crashed

theorem not_mem_eraseIdx {l : List Nat} {i c : Nat} (hl : l.Nodup) (hc : l[i]? = some c) :
    c ∉ l.eraseIdx i := by
  obtain ⟨hi, rfl⟩ := List.getElem?_eq_some_iff.mp hc
  exact (List.nodup_cons.mp ((List.getElem_cons_eraseIdx_perm hi).nodup_iff.mpr hl)).1

/-- A coroutine to be started: new, or at its end. -/
structure Idle (t : Threads) (c : Nat) : Prop where
  made : c < t.made
  session : (t.place c).session = none
  fork : c ∉ t.fork_queue
  pool : c ∉ t.coroutine_pool
  running : t.place c ≠ .running

theorem co_create (h : Kept t) (pick : Nat) :
    Kept (t.co_create pick).2 ∧ Idle (t.co_create pick).2 (t.co_create pick).1 := by
  rw [Threads.co_create]
  cases hpick : t.coroutine_pool[pick]? with
  | some c =>
    have hplace := h.pool.2 c (List.mem_of_getElem? hpick)
    refine ⟨h.queues (fun _ => .inl) (.refl _) (List.eraseIdx_sublist _ _) (fun _ => .inl rfl), ?_⟩
    refine ⟨?_, ?_, ?_, not_mem_eraseIdx h.pool.1 hpick, ?_⟩
    · by_contra hge
      rw [h.made c (Nat.le_of_not_lt hge)] at hplace
      cases hplace
    · show (t.place c).session = none
      rw [hplace]
      rfl
    · intro hmem
      have hforked := h.forks.2 c hmem
      rw [hplace] at hforked
      cases hforked
    · show t.place c ≠ .running
      rw [hplace]
      decide
  | none =>
    have hplace := h.made t.made (Nat.le_refl _)
    refine ⟨{ h with made := fun c hc => h.made c (Nat.le_of_succ_le hc) }, ?_⟩
    refine ⟨Nat.lt_succ_self _, ?_, fun hmem => ?_, fun hmem => ?_, ?_⟩
    · show (t.place t.made).session = none
      rw [hplace]
      rfl
    · have hforked := h.forks.2 _ hmem
      rw [hplace] at hforked
      cases hforked
    · have hpooled := h.pool.2 _ hmem
      rw [hplace] at hpooled
      cases hpooled
    · show t.place t.made ≠ .running
      rw [hplace]
      decide

theorem timeout (h : Kept t) (hfree : t.Free) (pick : Nat) : Kept (t.timeout pick) := by
  obtain ⟨hk, hidle⟩ := h.co_create pick
  have hfree' : (t.co_create pick).2.Free := free_co_create.mpr hfree
  rw [Threads.timeout]
  generalize t.co_create pick = p at hk hidle hfree'
  obtain ⟨c, t'⟩ := p
  show Kept (if t'.session_id_coroutine t'.genid = none then t'.ask c .timer else _)
  rw [if_pos hfree'.1]
  refine hk.ask hfree' hidle.made hidle.session rfl (fun _ _ => nofun) hidle.fork hidle.pool
    (fun x => ?_) (fun x y => ?_) fun y hy => .inl hy
  · have hx := hk.running x
    have hne := hidle.running
    grind
  · have hx := hk.sleeping x y
    have hsession := hidle.session
    grind [Place.session]

/-- A coroutine that is put where it is not started yet. -/
theorem put (h : Kept t) {c : Nat} (hidle : Idle t c) {p : Place} (hp : p.session = none)
    (hne : p ≠ .running) : Kept (t.put c p) :=
  h.switch hidle.made hidle.session hp hidle.fork hidle.pool fun x => by
    have hx := h.running x
    have hc := hidle.running
    show t.running = some x ↔ _
    grind

theorem fork (h : Kept t) (pick : Nat) : Kept (t.fork pick) := by
  obtain ⟨hk, hidle⟩ := h.co_create pick
  rw [Threads.fork]
  generalize t.co_create pick = p at hk hidle
  obtain ⟨c, t'⟩ := p
  have hput : Kept (t'.put c .forked) := hk.put hidle rfl (by decide)
  refine { hput with forks := ⟨?_, fun x hx => ?_⟩ }
  · refine List.nodup_append.mpr ⟨hk.forks.1, List.nodup_singleton _, ?_⟩
    have hc := hidle.fork
    grind
  · show (t'.put c .forked).place x = .forked
    rcases List.mem_append.mp hx with hx | hx
    · exact hput.forks.2 x hx
    · rw [List.mem_singleton.mp hx, place_put, if_pos rfl]

theorem wakeup (h : Kept t) (c : Nat) : Kept (t.wakeup c) := by
  rw [Threads.wakeup]
  split
  · exact h.queues (fun _ => .inl) (.refl _) (.refl _) (fun _ => .inl rfl)
  · exact h

/-- The running coroutine is in no queue. -/
theorem idle (h : Kept t) {c : Nat} (hc : t.running = some c) :
    c < t.made ∧ (t.place c).session = none ∧ c ∉ t.fork_queue ∧ c ∉ t.coroutine_pool := by
  have hplace := (h.running c).mp hc
  refine ⟨?_, ?_, fun hmem => ?_, fun hmem => ?_⟩
  · by_contra hge
    rw [h.made c (Nat.le_of_not_lt hge)] at hplace
    cases hplace
  · rw [hplace]
    rfl
  · rw [h.forks.2 c hmem] at hplace
    cases hplace
  · rw [h.pool.2 c hmem] at hplace
    cases hplace

theorem call (h : Kept t) (hfree : t.Free) {c : Nat} (hc : t.running = some c) (service : Nat) :
    Kept (t.call c service) := by
  obtain ⟨hmade, hsession, hfork, hpool⟩ := h.idle hc
  refine h.ask hfree hmade hsession rfl (fun _ _ => nofun) hfork hpool (fun x => ?_)
    (fun x y => ?_) fun y hy => ?_
  · have hx := h.running x
    grind
  · have hx := h.sleeping x y
    show t.sleep_session x = _ ↔ _
    grind [Place.session]
  · rcases List.mem_cons.mp hy with rfl | hy
    · exact .inr ⟨rfl, rfl⟩
    · exact .inl hy

theorem sleep (h : Kept t) (hfree : t.Free) {c : Nat} (hc : t.running = some c) {p : Nat → Place}
    (hp : p = .sleep ∨ p = (.wait · c)) : Kept (t.sleep c p) := by
  obtain ⟨hmade, hsession, hfork, hpool⟩ := h.idle hc
  refine h.ask hfree hmade hsession ?_ ?_ hfork hpool (fun x => ?_) (fun x y => ?_)
    fun y hy => .inl hy
  · rcases hp with rfl | rfl <;> rfl
  · rcases hp with rfl | rfl
    · exact fun _ _ => nofun
    · rintro session co ⟨⟩
      rfl
  · have hx := h.running x
    grind
  · have hx := h.sleeping x y
    rw [update_apply, place_ask]
    split
    next heq =>
      subst heq
      rcases hp with rfl | rfl <;> simp
    next => exact hx

/-- The running coroutine stops. -/
theorem stop (h : Kept t) {c : Nat} (hc : t.running = some c) {p : Place}
    (hp : p.session = none) (hne : p ≠ .running) : Kept (t.stop c p) := by
  obtain ⟨hmade, hsession, hfork, hpool⟩ := h.idle hc
  refine h.switch hmade hsession hp hfork hpool fun x => ?_
  have hx := h.running x
  grind

theorem finish (h : Kept t) {c : Nat} (hc : t.running = some c) : Kept (t.finish c) := by
  obtain ⟨-, -, -, hpool⟩ := h.idle hc
  have hstop : Kept (t.stop c .pooled) := h.stop hc rfl (by decide)
  refine { hstop with pool := ⟨?_, fun x hx => ?_⟩ }
  · refine List.nodup_append.mpr ⟨h.pool.1, List.nodup_singleton _, ?_⟩
    grind
  · show (t.put c .pooled).place x = .pooled
    rcases List.mem_append.mp hx with hx | hx
    · exact hstop.pool.2 x hx
    · rw [List.mem_singleton.mp hx, place_put, if_pos rfl]

/-- A coroutine that was put where it is not started yet is started. -/
theorem start (h : Kept t) {c : Nat} (hrun : t.running = none)
    (hplace : t.place c = .forked ∨ t.place c = .dispatched) (hfork : c ∉ t.fork_queue) :
    Kept (t.resume c .start) := by
  have hresume : t.resume c .start = t.run c := by
    unfold Threads.resume
    rcases hplace with hplace | hplace <;> rw [hplace]
  rw [hresume]
  refine h.switch ?_ ?_ rfl hfork (fun hmem => ?_) fun x => ?_
  · by_contra hge
    rw [h.made c (Nat.le_of_not_lt hge)] at hplace
    rcases hplace with hplace | hplace <;> cases hplace
  · rcases hplace with hplace | hplace <;> rw [hplace] <;> rfl
  · rw [h.pool.2 c hmem] at hplace
    rcases hplace with hplace | hplace <;> cases hplace
  · have hx := h.running x
    grind

/-- A coroutine that waits is resumed for what it waits for. -/
theorem resume (h : Kept t) (hrun : t.running = none) {c session : Nat} {w : Option Waiter}
    {why : Why} (hc : t.session_id_coroutine session = some (.co c)) (hw : ∀ x, w ≠ some (.co x))
    (hwhy : why = .response ∨ why = .error ∧ t.place c = .call session ∨
      why = .wakeup ∧ t.sleep_session c = some session) :
    Kept ((t.answer session c w).resume c why) := by
  have hsession := (h.waiting session c).mp hc
  have hsleep := h.sleeping c session
  have hnone : (∀ s, t.place c ≠ .sleep s ∧ t.place c ≠ .wait s c) → ∀ x,
      t.sleep_session x = if x = c then none else t.sleep_session x := by
    intro hne x
    split
    next heq =>
      rw [heq, Option.eq_none_iff_forall_ne_some]
      intro s hs
      rcases (h.sleeping c s).mp hs with hplace | hplace
      · exact (hne s).1 hplace
      · exact (hne s).2 hplace
    next => rfl
  unfold Threads.resume
  rw [place_answer]
  cases hplace : t.place c with
  | timer s =>
    rw [hplace] at hwhy hsleep
    obtain rfl : why = .response := by simpa [hsleep] using hwhy
    exact h.answer hrun hc hw (hnone (by simp [hplace])) fun e he => ⟨he, by simp [hplace]⟩
  | call s =>
    rw [hplace] at hwhy hsleep
    obtain rfl | rfl : why = .response ∨ why = .error := by
      rcases hwhy with hwhy | hwhy | hwhy
      · exact .inl hwhy
      · exact .inr hwhy.1
      · simp [hsleep] at hwhy
    all_goals
      refine h.answer hrun hc hw (hnone (by simp [hplace])) fun e he => ?_
      obtain ⟨hmem, hne⟩ := List.mem_filter.mp he
      refine ⟨hmem, fun hcall => ?_⟩
      rw [hplace] at hcall
      cases hcall
      simp at hne
  | sleep s =>
    obtain rfl | rfl : why = .response ∨ why = .wakeup := by
      rcases hwhy with hwhy | hwhy | hwhy
      · exact .inl hwhy
      · simp [hplace] at hwhy
      · exact .inr hwhy.1
    all_goals
      exact h.answer hrun hc hw (fun x => update_apply ..) fun e he => ⟨he, by simp [hplace]⟩
  | wait s co =>
    obtain rfl : co = c := h.waits c s co hplace
    obtain rfl : s = session := by simpa [hplace, Place.session] using hsession
    obtain rfl | rfl : why = .response ∨ why = .wakeup := by
      rcases hwhy with hwhy | hwhy | hwhy
      · exact .inl hwhy
      · simp [hplace] at hwhy
      · exact .inr hwhy.1
    all_goals
      -- the coroutine clears the entry itself
      have hk : Kept
          { (t.answer s co none).run co with sleep_session := update t.sleep_session co none } :=
        h.answer hrun hc (fun x => (Option.some_ne_none _).symm) (fun x => update_apply ..)
          fun e he => ⟨he, by simp [hplace]⟩
      have hidem : update (update t.session_id_coroutine s w) s none =
        update t.session_id_coroutine s none := Function.update_idem ..
      simpa only [Threads.answer, Threads.run, Threads.put, hidem] using hk
  | unmade => simp [hplace, Place.session] at hsession
  | forked => simp [hplace, Place.session] at hsession
  | dispatched => simp [hplace, Place.session] at hsession
  | running => simp [hplace, Place.session] at hsession
  | pooled => simp [hplace, Place.session] at hsession
  | dead => simp [hplace, Place.session] at hsession
  | lost => simp [hplace, Place.session] at hsession

theorem dispatch_wakeup (h : Kept t) (hrun : t.running = none) : Kept t.dispatch_wakeup := by
  rw [Threads.dispatch_wakeup]
  cases hq : t.wakeup_queue with
  | nil => exact h
  | cons c rest =>
    have hk : Kept { t with wakeup_queue := rest } :=
      h.queues (fun _ => .inl) (.refl _) (.refl _) (fun _ => .inl rfl)
    dsimp only
    split
    next session hs =>
      refine hk.resume hrun ((hk.waiting session c).mpr ?_) (fun x hx => ?_) (.inr (.inr ⟨rfl, hs⟩))
      · rcases (hk.sleeping c session).mp hs with hplace | hplace <;> rw [hplace] <;> rfl
      · cases hx
    next => exact hk

theorem dispatch_error_queue (h : Kept t) (hrun : t.running = none) :
    Kept t.dispatch_error_queue.1 := by
  rw [Threads.dispatch_error_queue]
  cases hq : t.error_queue with
  | nil => exact h
  | cons session rest =>
    have hk : Kept { t with error_queue := rest } := by
      refine h.queues (fun x hx => .inl ?_) (.refl _) (.refl _) (fun _ => .inl rfl)
      rw [hq]
      exact .tail _ hx
    dsimp only
    split
    next c hc =>
      refine hk.resume hrun hc (fun x => (Option.some_ne_none _).symm) (.inr (.inl ⟨rfl, ?_⟩))
      refine h.errors session ?_ c ((h.waiting session c).mp hc)
      rw [hq]
      exact .head _
    next hne =>
      refine hk.queues (fun _ => .inl) (.refl _) (.refl _) (fun x => ?_)
      rw [update_apply]
      split
      next heq =>
        rw [heq]
        exact .inr ⟨rfl, hne⟩
      next => exact .inl rfl

theorem response (h : Kept t) (hrun : t.running = none) {session : Nat} {t' : Threads}
    (ht : t.response session = some t') : Kept t' := by
  rw [Threads.response] at ht
  split at ht
  next hb =>
    obtain rfl := Option.some.inj ht
    refine h.queues (fun _ => .inl) (.refl _) (.refl _) (fun x => ?_)
    rw [update_apply]
    split
    next heq =>
      rw [heq, hb]
      exact .inr ⟨rfl, fun c => by simp⟩
    next => exact .inl rfl
  next c hc =>
    obtain rfl := Option.some.inj ht
    exact h.resume hrun hc (fun x => (Option.some_ne_none _).symm) (.inl rfl)
  next => cases ht

theorem error_dispatch (h : Kept t) (error_session error_source : Nat) :
    Kept (t.error_dispatch error_session error_source) := by
  have hk : ∀ {eq : List Nat}, (∀ session ∈ eq, session ∈ t.error_queue ∨
      session ∈ t.watching_session.map (·.1)) → Kept { t with error_queue := eq } := fun heq =>
    h.queues heq (.refl _) (.refl _) (fun _ => .inl rfl)
  rw [Threads.error_dispatch]
  split
  · refine hk fun session hs => (List.mem_append.mp hs).imp_right fun hmem => ?_
    obtain ⟨e, he, rfl⟩ := List.mem_map.mp hmem
    exact List.mem_map_of_mem (List.mem_filter.mp he).1
  · split
    next hmem =>
      refine hk fun session hs => (List.mem_append.mp hs).imp_right fun hs => ?_
      rw [List.mem_singleton.mp hs]
      exact hmem
    · exact h

end Kept

end Threads

/-! ## Every step -/

open Threads (Kept running_co_create running_error_dispatch resume_dispatched place_put)

variable {s : Service}

theorem kept_message (h : Kept s.threads) (hrun : s.threads.running = none) (m : Message)
    (pick : Nat) : Kept (s.raw_dispatch_message m pick).threads := by
  obtain ⟨hk, hidle⟩ := h.co_create pick
  rw [Service.raw_dispatch_message]
  split
  · split
    next t ht => exact h.response hrun ht
    next => exact h
  split
  · split <;> exact h
  have hnone : (s.threads.co_create pick).2.running = none := running_co_create.trans hrun
  generalize s.threads.co_create pick = p at hk hidle hnone
  obtain ⟨c, t⟩ := p
  have hput : Kept (t.put c .dispatched) := hk.put hidle rfl (by decide)
  have hplace : (t.put c .dispatched).place c = .dispatched := by rw [place_put, if_pos rfl]
  have hstart := hput.start hnone (.inr hplace) hidle.fork
  dsimp only
  split
  · exact hk.put hidle rfl (by decide)
  split
  · refine (hstart.error_dispatch m.session m.source).finish ?_
    rw [running_error_dispatch, resume_dispatched hplace]
    rfl
  · exact hstart

theorem kept_go (h : Kept s.threads) (hrun : s.threads.running = none) (pick : Nat) :
    Kept (s.go pick).threads := by
  rw [Service.go]
  split
  next => exact h
  next => exact h.dispatch_wakeup hrun
  next =>
    dsimp only
    split <;> exact h.dispatch_error_queue hrun
  next =>
    split
    next c hc =>
      have hk : Kept { s.threads with fork_queue := s.threads.fork_queue.eraseIdx pick } :=
        h.queues (fun _ => .inl) (List.eraseIdx_sublist _ _) (.refl _) (fun _ => .inl rfl)
      exact hk.start hrun (.inl (h.forks.2 c (List.mem_of_getElem? hc)))
        (Kept.not_mem_eraseIdx h.forks.1 hc)
    next => split <;> exact h

theorem kept_act (h : Kept s.threads) {c : Nat} (hc : s.threads.running = some c) {a : Act}
    (hok : Op.ok s (.act a)) : Kept (s.act c a).threads := by
  cases a with
  | genid => exact h.queues (fun _ => .inl) (.refl _) (.refl _) (fun _ => .inl rfl)
  | timeout pick => exact h.timeout hok pick
  | fork pick => exact h.fork pick
  | wakeup x => exact h.wakeup x
  | call service => exact h.call hok hc service
  | sleep => exact h.sleep hok hc (.inl rfl)
  | wait co =>
    obtain ⟨hfree, hco⟩ := hok
    have hself : co.getD c = c := by
      rcases hco with rfl | rfl
      · rfl
      · rw [hc]
        rfl
    exact h.sleep hfree hc (.inr (by rw [hself]))
  | ret accepted =>
    rw [Service.act]
    split
    · exact h
    · exact h.stop hc rfl (by decide)
  | response =>
    rw [Service.act]
    split
    · exact h
    · exact h.stop hc rfl (by decide)
  | respond i ok accepted => exact h
  | test i => exact h
  | exit =>
    have hk : Kept { s.threads with fork_queue := [] } :=
      h.queues (fun _ => .inl) (List.nil_sublist _) (.refl _) (fun _ => .inl rfl)
    exact hk.stop hc rfl (by decide)
  | term service => exact h.error_dispatch 0 service
  | finish => exact h.finish hc
  | error => exact h.stop hc rfl (by decide)
  | yield debug =>
    rw [Service.act]
    split <;> exact h.stop hc rfl (by decide)

theorem kept_exec (h : Kept s.threads) {op : Op} (hok : op.ok s) : Kept (exec s op).threads := by
  cases op with
  | message m pick =>
    rw [exec]
    split
    next hidle =>
      have hk : Kept { s with todo := [.fork] : Service }.threads := h
      exact kept_message hk hidle.1 m pick
    next => exact h
  | go pick =>
    rw [exec]
    split
    next hrun => exact kept_go h hrun pick
    next => exact h
  | act a =>
    rw [exec]
    split
    next c hc => exact kept_act h hc hok
    next => exact h
  | collect i =>
    exact h.queues (fun _ => .inl) (.refl _) (List.eraseIdx_sublist _ _) (fun _ => .inl rfl)

theorem kept_new : Kept Threads.new := by
  constructor
  all_goals simp [Threads.new, Place.session, Threads.asks, Threads.resumes, Threads.waiters]

/-- What a service reaches that uses no session again while it is in use. -/
def Orderly : Service → Prop := Machine.Reach exec (fun s op => op.ok s) Service.start

theorem Orderly.kept (h : Orderly s) : Kept s.threads :=
  h.invariant (I := fun s => Kept s.threads) (kept_new.timeout ⟨rfl, List.not_mem_nil⟩ 0)
    fun _ _ hs hok => kept_exec hs hok

/-- A coroutine is only resumed where it is suspended, and for what it waits for there. Those who
ask for a session are resumed for it one after the other, in this order; the last one may not be
yet, and then waits for it, and for nothing else. -/
theorem resumed_once (h : Orderly s) :
    s.threads.crashed = false ∧ ∀ session,
      (s.threads.asks session = s.threads.resumes session ∧
        ∀ c, s.threads.session_id_coroutine session ≠ some (.co c)) ∨
      ∃ c, s.threads.asks session = s.threads.resumes session ++ [c] ∧
        s.threads.session_id_coroutine session = some (.co c) ∧
          ∀ x, s.threads.session_id_coroutine x = some (.co c) → x = session := by
  have hk := h.kept
  refine ⟨hk.crashed, fun session => ?_⟩
  have hturn := hk.turns session
  unfold Threads.waiters at hturn
  split at hturn
  next c hc =>
    refine .inr ⟨c, hturn, hc, fun x hx => ?_⟩
    have hsession := (hk.waiting session c).mp hc
    rw [(hk.waiting x c).mp hx] at hsession
    exact Option.some.inj hsession
  next hno => exact .inl ⟨by simpa using hturn, hno⟩

/-- The first coroutine calls, one that it has forked sleeps and is woken up, the answer comes. -/
def sampleRun : List Op :=
  [.message ⟨PTYPE_RESPONSE, 1, 0, true, true⟩ 0, .act (.fork 0), .act (.call 7), .go 0, .go 0, .go 0,
    .act .sleep, .go 0, .go 0, .go 0, .message ⟨PTYPE_RESPONSE, 2, 7, true, true⟩ 0, .act (.wakeup 1),
    .act .finish, .go 0]

theorem resumed_once_sample :
    (sampleRun.foldl exec Service.start).threads.resumed = [(1, 0), (2, 0), (3, 1)] ∧
      (sampleRun.foldl exec Service.start).threads.crashed = false := by
  have hallowed : Machine.Allowed exec (fun s op => op.ok s) Service.start sampleRun := by
    repeat' constructor
    all_goals exact List.not_mem_nil
  exact ⟨rfl, (resumed_once (Machine.Reach.init.run sampleRun hallowed)).1⟩

end SkynetHotfix.Skynet.Coroutines
