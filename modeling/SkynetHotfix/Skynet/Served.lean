import Mathlib.Algebra.BigOperators.Group.List.Basic
import Mathlib.Algebra.Group.Pi.Basic
import Mathlib.Tactic.Abel
import SkynetHotfix.Skynet.Dispatch

/-!
# What the dispatch keeps

Each frame has a share in a service: a reference, a place of its queue, and so on (`Frame.tally`).
For every run the shares add up with the flags of the service (`Counted`): the references are
counted, a queue that is `in_global` or released has one place, be it in the global queue or with
one thread, and it is released once, after the last reference. What was put into a queue is what was
dispatched, what was dropped and what is in it, in order (`Service.Logged`).

So no step ever fails (`Kept.step`), no two threads look after one service (`one_at_a_time`), and no
message is lost, doubled or left lying (`in_order`).
-/

namespace SkynetHotfix.Skynet

open Function (update)

/-- What a frame may have of a service. -/
inductive Kind
  /-- a reference -/
  | ref
  /-- the place of its queue -/
  | place
  /-- its context to delete -/
  | delete
  /-- a launch that is not over -/
  | launch
  /-- a context without its queue -/
  | create
  /-- a loop that dispatches its messages -/
  | dispatch
  /-- a queue whose service could not be grabbed -/
  | release
  /-- a queue to drop -/
  | drop
deriving DecidableEq

abbrev Tally : Type := Kind → Nat

def share (h q : Nat) (kinds : List Kind) : Tally :=
  fun k => if q = h ∧ k ∈ kinds then 1 else 0

/-- What a frame has of the service `h`. -/
def Frame.tally (h : Nat) : Frame → Tally
  | turn _ q _ _ | length _ q _ | call _ q _ _ _ => share h q [.ref, .place, .dispatch]
  | worker _ none => 0
  | worker _ (some q) => share h q [.place]
  | back _ q nq => share h q [.ref, .place] + share h nq [.place]
  | leave _ q none => share h q [.ref]
  | leave _ q (some ret) => share h q [.ref] + share h ret [.place]
  | mq_release q => share h q [.place, .release]
  | drop_queue q => share h q [.place, .release, .drop]
  | push q _ | release q => share h q [.ref]
  | delete q => share h q [.delete]
  | create q => share h q [.ref, .place, .launch, .create]
  | init q | launched q | failed q => share h q [.ref, .place, .launch]
  | unlaunched q => share h q [.place, .launch]
  | start q => share h q [.place]
  | send _ _ | retire _ | grab _ | callback _ _ | new => 0

def tally (h : Nat) (fs : List Frame) : Tally := (fs.map (Frame.tally h)).sum

/-- The count of references and the flags of a service, as numbers. -/
structure Account where
  ref : Nat
  registered : Nat
  init : Nat
  created : Nat
  in_global : Nat
  release : Nat
  freed : Nat

def Service.account (s : Service) : Account where
  ref := s.ref
  registered := s.registered.toNat
  init := s.init.toNat
  created := s.created.toNat
  in_global := s.queue.in_global.toNat
  release := s.queue.release.toNat
  freed := s.freed.toNat

/-- The account of a service whose queue is `n` times in the global queue, and of which the frames
have `t`. -/
structure Counted (a : Account) (n : Nat) (t : Tally) : Prop where
  ref : a.ref = a.registered + t .ref
  place : n + t .place + a.freed = max a.in_global a.release
  alive : a.ref ≠ 0 → t .delete + a.release = 0
  ended : a.ref = 0 → t .delete + a.release = 1
  freed : a.freed ≤ a.release
  launch : a.registered ≤ a.init + t .launch
  created : a.created + t .create = 1
  dispatch : 0 < t .dispatch → a.init = 1
  release : 0 < t .release → a.registered = 0
  drop : 0 < t .drop → a.release = 1
  flags : a.registered ≤ 1 ∧ a.init ≤ 1 ∧ a.in_global ≤ 1

/-- What was put into a queue has been dispatched, dropped or is there, in order. -/
structure Service.Logged (s : Service) : Prop where
  log : s.pushed = s.taken ++ s.dropped ++ s.queue.contents
  dropped : s.queue.release = false → s.dropped = []
  idle : s.queue.in_global = false → s.queue.release = false → s.queue.contents = []
  freed : s.freed = true → s.queue.contents = []

/-- The invariant, `l` being the global queue. -/
structure Kept (m : Memory) (l : List Nat) (fs : List Frame) : Prop where
  spells : m.global.Spells l
  counted : ∀ h, Counted (m.services h).account (l.count h) (tally h fs)
  logged : ∀ h, (m.services h).Logged

variable {m : Memory} {l l' : List Nat} {fs gs : List Frame} {f : Frame} {h q : Nat}
  {choice : Choice} {t t' : Tally} {a : Account} {n n' : Nat}

@[simp] theorem tally_nil : tally h [] = 0 := rfl

@[simp] theorem tally_cons : tally h (f :: fs) = f.tally h + tally h fs := by
  simp [tally]

theorem tally_cons_pos {k : Kind} (hf : 0 < f.tally h k) : 0 < tally h (f :: fs) k := by
  simp only [tally_cons, Pi.add_apply]
  omega

@[simp] theorem tally_append : tally h (gs ++ fs) = tally h gs + tally h fs := by
  simp [tally]

theorem tally_perm (hp : fs.Perm gs) : tally h fs = tally h gs :=
  (hp.map _).sum_eq

theorem share_of_ne (hq : q ≠ h) (kinds : List Kind) : share h q kinds = 0 := by
  funext k
  simp [share, hq]

@[simp] theorem share_self (kinds : List Kind) (k : Kind) :
    share h h kinds k = if k ∈ kinds then 1 else 0 := by
  simp [share]

/-- A frame that launches, dispatches or releases a service has its place, and only one that
releases it drops it; one that launches it without its queue has a reference. -/
theorem Frame.tally_le (h : Nat) (f : Frame) :
    f.tally h .launch + f.tally h .dispatch + f.tally h .release ≤ f.tally h .place ∧
      f.tally h .drop ≤ f.tally h .release ∧
      f.tally h .create ≤ f.tally h .launch ∧ f.tally h .create ≤ f.tally h .ref := by
  unfold Frame.tally
  split <;> simp [share]

theorem tally_le (h : Nat) (fs : List Frame) :
    tally h fs .launch + tally h fs .dispatch + tally h fs .release ≤ tally h fs .place ∧
      tally h fs .drop ≤ tally h fs .release ∧
      tally h fs .create ≤ tally h fs .launch ∧ tally h fs .create ≤ tally h fs .ref := by
  induction fs with
  | nil => simp
  | cons f fs ih =>
    have hf := f.tally_le h
    simp only [tally_cons, Pi.add_apply]
    omega

/-- The place goes from one holder to another, and less has to be done. -/
theorem Counted.move (hc : Counted a n t) (hplace : n' + t' .place = n + t .place)
    (href : t' .ref = t .ref) (hdelete : t' .delete = t .delete)
    (hlaunch : t .launch ≤ t' .launch) (hcreate : t' .create = t .create) (hdispatch : t' .dispatch ≤ t .dispatch)
    (hrelease : t' .release ≤ t .release) (hdrop : t' .drop ≤ t .drop) : Counted a n' t' where
  ref := by rw [href, hc.ref]
  place := by rw [hplace, hc.place]
  alive := by rw [hdelete]; exact hc.alive
  ended := by rw [hdelete]; exact hc.ended
  freed := hc.freed
  launch := by have := hc.launch; omega
  created := by rw [hcreate, hc.created]
  dispatch hd := hc.dispatch (by omega)
  release hr := hc.release (by omega)
  drop hd := hc.drop (by omega)
  flags := hc.flags

/-- One service changes, and no other has to do with it. -/
theorem Kept.set (hk : Kept m l fs) {s : Service} {g : GlobalQueue} (hg : g.Spells l')
    (hc : Counted s.account (l'.count q) (tally q gs)) (hl : s.Logged)
    (hother : ∀ h ≠ q, l'.count h = l.count h ∧ tally h gs = tally h fs) :
    Kept ⟨update m.services q s, g⟩ l' gs where
  spells := hg
  counted h := by
    by_cases hq : h = q
    · subst hq
      simpa using hc
    · obtain ⟨hcount, htally⟩ := hother h hq
      dsimp only
      rw [Function.update_of_ne hq, hcount, htally]
      exact hk.counted h
  logged h := by
    by_cases hq : h = q
    · subst hq
      simpa using hl
    · dsimp only
      rw [Function.update_of_ne hq]
      exact hk.logged h

/-- A step of `f` does not fail, and keeps the invariant. -/
def Frame.Keeps (m : Memory) (choice : Choice) (f : Frame) (fs : List Frame) : Prop :=
  ∃ m' gs l', f.step m choice = some (m', gs) ∧ Kept m' l' (gs ++ fs)

/-- What only moves places about, of any services. -/
theorem Kept.moved (hk : Kept m l fs) {g : GlobalQueue} (hg : g.Spells l')
    (hplace : ∀ h, l'.count h + tally h gs .place = l.count h + tally h fs .place)
    (hrest : ∀ h, tally h gs .ref = tally h fs .ref ∧ tally h gs .delete = tally h fs .delete ∧
      tally h fs .launch ≤ tally h gs .launch ∧ tally h gs .create = tally h fs .create ∧
      tally h gs .dispatch ≤ tally h fs .dispatch ∧
      tally h gs .release ≤ tally h fs .release ∧ tally h gs .drop ≤ tally h fs .drop) :
    Kept ⟨m.services, g⟩ l' gs where
  spells := hg
  counted h := by
    obtain ⟨href, hdelete, hlaunch, hcreate, hdispatch, hrelease, hdrop⟩ := hrest h
    exact (hk.counted h).move (hplace h) href hdelete hlaunch hcreate hdispatch hrelease hdrop
  logged := hk.logged

/-- A queue that has a place is there, unless it is to be created. -/
theorem Kept.live (hk : Kept m l (f :: fs)) (hf : 0 < f.tally q .place)
    (hcreate : f.tally q .create = 0) : m.live q = some (m.services q) := by
  have hc := hk.counted q
  rw [tally_cons] at hc
  have hplace := hc.place
  have hcreated := hc.created
  have hle := tally_le q fs
  have hin := hc.flags.2.2
  have hrelease : (m.services q).account.release ≤ 1 := Bool.toNat_le _
  simp only [Pi.add_apply] at hplace hcreated
  have hfreed : (m.services q).account.freed = 0 := by omega
  have hone : (m.services q).account.created = 1 := by omega
  simp only [Service.account] at hfreed hone
  rw [Memory.live, if_neg]
  rintro (h | h)
  · rw [h] at hfreed
    cases hfreed
  · rw [h] at hone
    cases hone

/-- The queue of a context that is held is not released, nor freed. -/
theorem Kept.held (hk : Kept m l fs) (h : 0 < tally q fs .ref) :
    (m.services q).queue.release = false ∧ (m.services q).freed = false := by
  have hc := hk.counted q
  have halive := hc.alive (by have := hc.ref; omega)
  have hfreed := hc.freed
  simp only [Service.account] at halive hfreed
  constructor
  · exact Bool.toNat_eq_zero.mp (by omega)
  · exact Bool.toNat_eq_zero.mp (by omega)

/-- A place with a frame is not in the global queue. -/
theorem Kept.notMem (hk : Kept m l fs) (h : 0 < tally q fs .place) : q ∉ l := by
  have hc := hk.counted q
  have hplace := hc.place
  have hflags := hc.flags.2.2
  have : (m.services q).account.release ≤ 1 := Bool.toNat_le _
  exact List.count_eq_zero.mp (by omega)

namespace Counted

/-- A reference is got through the handle. -/
theorem grab (hc : Counted a n t) (hr : a.registered = 1) :
    Counted { a with ref := a.ref + 1 } n (share q q [.ref] + t) := by
  obtain ⟨href, hplace, halive, hended, hfreed, hlaunch, hcreated, hdispatch, hrelease, hdrop,
    hflags⟩ := hc
  constructor <;> simp <;> omega

/-- A worker has got the service: it is not being launched, since then the place is elsewhere. -/
theorem turn (hc : Counted a n (share q q [.place] + t))
    (hle : t .launch + t .dispatch + t .release ≤ t .place) (hr : a.registered = 1) :
    Counted { a with ref := a.ref + 1 } n (share q q [.ref, .place, .dispatch] + t) := by
  obtain ⟨href, hplace, halive, hended, hfreed, hlaunch, hcreated, hdispatch, hrelease, hdrop,
    hflags⟩ := hc
  simp at *
  constructor <;> simp <;> omega

/-- A worker has not got the service. -/
theorem missed (hc : Counted a n (share q q [.place] + t)) (hr : a.registered = 0) :
    Counted a n (share q q [.place, .release] + t) := by
  obtain ⟨href, hplace, halive, hended, hfreed, hlaunch, hcreated, hdispatch, hrelease, hdrop,
    hflags⟩ := hc
  simp at *
  constructor <;> (try simp) <;> omega

/-- A reference is given back. -/
theorem unref (hc : Counted a n (share q q [.ref] + t)) :
    a.ref ≠ 0 ∧ Counted { a with ref := a.ref - 1 } n
      ((if a.ref = 1 then share q q [.delete] else 0) + t) := by
  obtain ⟨href, hplace, halive, hended, hfreed, hlaunch, hcreated, hdispatch, hrelease, hdrop,
    hflags⟩ := hc
  simp at *
  refine ⟨by omega, ?_⟩
  split
  · constructor <;> simp <;> omega
  · constructor <;> simp <;> omega

/-- The worker leaves a queue that is empty. -/
theorem empty (hc : Counted a n (share q q [.ref, .place, .dispatch] + t)) :
    Counted { a with in_global := 0 } n (share q q [.ref] + t) := by
  obtain ⟨href, hplace, halive, hended, hfreed, hlaunch, hcreated, hdispatch, hrelease, hdrop,
    hflags⟩ := hc
  simp at *
  constructor <;> simp <;> omega

/-- A queue gets a message, and a place where it has none. -/
theorem push (hc : Counted a n (share q q [.ref] + t)) :
    Counted { a with in_global := 1 } (if a.in_global = 0 then n + 1 else n)
      (share q q [.ref] + t) := by
  obtain ⟨href, hplace, halive, hended, hfreed, hlaunch, hcreated, hdispatch, hrelease, hdrop,
    hflags⟩ := hc
  simp at *
  constructor <;> simp <;> grind

/-- The queue of a context that is gone is released, and gets a place where it has none. -/
theorem mark (hc : Counted a n (share q q [.delete] + t)) :
    a.release = 0 ∧
      Counted { a with release := 1 } (if a.in_global = 0 then n + 1 else n) t := by
  obtain ⟨href, hplace, halive, hended, hfreed, hlaunch, hcreated, hdispatch, hrelease, hdrop,
    hflags⟩ := hc
  simp at *
  refine ⟨by omega, ?_⟩
  constructor <;> simp <;> grind

theorem drops (hc : Counted a n (share q q [.place, .release] + t)) (hr : a.release = 1) :
    Counted a n (share q q [.place, .release, .drop] + t) := by
  obtain ⟨href, hplace, halive, hended, hfreed, hlaunch, hcreated, hdispatch, hrelease, hdrop,
    hflags⟩ := hc
  simp at *
  constructor <;> (try simp) <;> omega

theorem free (hc : Counted a n (share q q [.place, .release, .drop] + t)) :
    Counted { a with in_global := 0, freed := 1 } n t := by
  obtain ⟨href, hplace, halive, hended, hfreed, hlaunch, hcreated, hdispatch, hrelease, hdrop,
    hflags⟩ := hc
  simp at *
  constructor <;> simp <;> omega

theorem retire (hc : Counted a n t) (hr : a.registered = 1) :
    Counted { a with registered := 0 } n (share q q [.ref] + t) := by
  obtain ⟨href, hplace, halive, hended, hfreed, hlaunch, hcreated, hdispatch, hrelease, hdrop,
    hflags⟩ := hc
  simp at *
  constructor <;> simp <;> omega

/-- A new service, where none is left. -/
theorem new (hc : Counted a n t) (hf : a.freed = 1) (hr : a.release ≤ 1)
    (hle : t .launch + t .dispatch + t .release ≤ t .place ∧ t .drop ≤ t .release ∧
      t .create ≤ t .launch ∧ t .create ≤ t .ref) :
    Counted ⟨2, 1, 0, 0, 1, 0, 0⟩ n (share q q [.ref, .place, .launch, .create] + t) := by
  obtain ⟨href, hplace, halive, hended, hfreed, hlaunch, hcreated, hdispatch, hrelease, hdrop,
    hflags⟩ := hc
  constructor <;> simp <;> omega

/-- The queue of a new service. -/
theorem create (hc : Counted a n (share q q [.ref, .place, .launch, .create] + t)) :
    Counted { a with created := 1 } n (share q q [.ref, .place, .launch] + t) := by
  obtain ⟨href, hplace, halive, hended, hfreed, hlaunch, hcreated, hdispatch, hrelease, hdrop,
    hflags⟩ := hc
  simp at *
  constructor <;> (try simp) <;> omega

theorem launched (hc : Counted a n (share q q [.place, .launch] + t)) :
    Counted { a with init := 1 } n (share q q [.place] + t) := by
  obtain ⟨href, hplace, halive, hended, hfreed, hlaunch, hcreated, hdispatch, hrelease, hdrop,
    hflags⟩ := hc
  simp at *
  constructor <;> simp <;> omega

/-- A launch of what is retired already. -/
theorem given_up (hc : Counted a n (share q q [.place, .launch] + t)) (hr : a.registered = 0) :
    Counted a n (share q q [.place] + t) := by
  obtain ⟨href, hplace, halive, hended, hfreed, hlaunch, hcreated, hdispatch, hrelease, hdrop,
    hflags⟩ := hc
  simp at *
  constructor <;> (try simp) <;> omega

end Counted

theorem share_cons {k : Kind} {kinds : List Kind} (hk : k ∉ kinds) :
    share h q (k :: kinds) = share h q [k] + share h q kinds := by
  funext j
  by_cases hj : j = k
  · subst hj
    simp [share, hk]
  · simp [share, hj]

namespace Service.Logged

variable {s : Service}

/-- The flags that `Logged` does not speak of. -/
theorem congr (hl : s.Logged) {ref : Nat} {registered cb init created : Bool} :
    Logged { s with
      ref := ref, registered := registered, cb := cb, init := init, created := created } :=
  ⟨hl.log, hl.dropped, hl.idle, hl.freed⟩

end Service.Logged

/-- A place that goes to the global queue. -/
theorem Kept.globalmq_push (hk : Kept m l (f :: fs)) (gs : List Frame) (q : Nat)
    (hf : ∀ h, f.tally h = share h q [.place] + tally h gs) :
    ∃ m', m.globalmq_push q = some m' ∧ Kept m' (l ++ [q]) (gs ++ fs) := by
  have hplace : 0 < f.tally q .place := by
    rw [hf]
    exact Nat.add_pos_left (by simp) _
  have hq : q ∉ l := hk.notMem (tally_cons_pos hplace)
  obtain ⟨g, hpush, hg⟩ := hk.spells.push hq
  refine ⟨⟨m.services, g⟩, by simp [Memory.globalmq_push, hpush], hk.moved hg ?_ ?_⟩
  · intro h
    simp [hf, share, List.count_singleton]
    split <;> omega
  · intro h
    simp [hf, share]

/-- A reference that a frame gives back. -/
theorem Kept.context_release (hk : Kept m l (f :: fs)) (gs : List Frame) (q : Nat)
    (hf : ∀ h, f.tally h = share h q [.ref] + tally h gs) :
    ∃ m' rest ret, m.context_release q = some (m', rest, ret) ∧
      Kept m' l (rest ++ (gs ++ fs)) ∧ (ret = false → (m'.services q).ref = 0) := by
  have hc : Counted (m.services q).account (l.count q)
      (share q q [.ref] + (tally q gs + tally q fs)) := by
    rw [← add_assoc, ← hf, ← tally_cons]
    exact hk.counted q
  obtain ⟨hne, hc⟩ := hc.unref
  have hother : ∀ h ≠ q, tally h (gs ++ fs) = tally h (f :: fs) := by
    intro h hq
    simp [hf, share_of_ne (Ne.symm hq)]
  by_cases hone : (m.services q).ref = 1
  · refine ⟨m.set q { m.services q with ref := 0 }, [.delete q], false, ?_, ?_, fun _ => ?_⟩
    · simp [Memory.context_release, hone]
    · refine hk.set hk.spells ?_ (hk.logged q).congr fun h hq => ⟨rfl, ?_⟩
      · simpa [Service.account, hone, Frame.tally] using hc
      · rw [tally_append, ← hother h hq]
        simp [Frame.tally, share_of_ne (Ne.symm hq)]
    · simp [Memory.set]
  · refine ⟨m.set q { m.services q with ref := (m.services q).ref - 1 }, [], true, ?_, ?_, by simp⟩
    · have : (m.services q).ref ≠ 0 := hne
      simp [Memory.context_release, hone, this]
    · refine hk.set hk.spells ?_ (hk.logged q).congr fun h hq => ⟨rfl, hother h hq⟩
      simpa [Service.account, hone] using hc

/-- A reference that a frame gets through the handle. -/
theorem Kept.handle_grab (hk : Kept m l fs) (hr : (m.services q).registered = true)
    (hf : ∀ h, f.tally h = share h q [.ref]) :
    ∃ m', m.handle_grab q = some m' ∧ Kept m' l (f :: fs) := by
  refine ⟨m.set q { m.services q with ref := (m.services q).ref + 1 }, ?_, ?_⟩
  · simp [Memory.handle_grab, hr]
  · refine hk.set hk.spells ?_ (hk.logged q).congr fun h hq => ⟨rfl, ?_⟩
    · rw [tally_cons, hf]
      exact (hk.counted q).grab (by simp [Service.account, hr])
    · rw [tally_cons, hf, share_of_ne (Ne.symm hq), zero_add]

theorem Kept.handle_retire (hk : Kept m l fs) (q : Nat) :
    Kept (m.handle_retire q).1 l ((m.handle_retire q).2 ++ fs) ∧
      ((m.handle_retire q).1.services q).registered = false := by
  rw [Memory.handle_retire]
  split
  · next hr =>
    refine ⟨hk.set hk.spells ?_ (hk.logged q).congr fun h hq => ⟨rfl, ?_⟩, by simp [Memory.set]⟩
    · simpa [Service.account, Frame.tally] using
        (hk.counted q).retire (q := q) (by simp [Service.account, hr])
    · simp [Frame.tally, share_of_ne (Ne.symm hq)]
  · next hr => exact ⟨hk, by simpa using hr⟩

variable {weight : Int} {i j : Nat} {msg : Message} {ret : Option Nat} {r : Option Nat}

theorem Kept.worker (hk : Kept m l (.worker weight r :: fs)) :
    (Frame.worker weight r).Keeps m choice fs := by
  cases r with
  | none =>
    rcases l with _ | ⟨q, l⟩
    · refine ⟨m, [.worker weight none], [], ?_, hk⟩
      simp [Frame.step, Memory.globalmq_pop, hk.spells.pop_nil]
    · obtain ⟨g, hpop, hg⟩ := hk.spells.pop_cons
      refine ⟨⟨m.services, g⟩, [.worker weight (some q)], l, ?_, hk.moved hg ?_ ?_⟩
      · simp [Frame.step, Memory.globalmq_pop, hpop]
      · intro h
        simp [Frame.tally, share, List.count_cons]
        split <;> omega
      · simp [Frame.tally, share]
  | some q =>
    have hlive := hk.live (q := q) (by simp [Frame.tally]) (by simp [Frame.tally])
    have hc := hk.counted q
    simp only [tally_cons, Frame.tally] at hc
    cases hr : (m.services q).registered with
    | true =>
      refine ⟨m.set q { m.services q with ref := (m.services q).ref + 1 }, [.turn weight q 0 1], l,
        by simp [Frame.step, hlive, Memory.handle_grab, hr],
        hk.set hk.spells ?_ (hk.logged q).congr fun h hq => ⟨rfl, ?_⟩⟩
      · simpa [Frame.tally, Service.account, hr] using
          hc.turn (tally_le q fs).1 (by simp [Service.account, hr])
      · simp [Frame.tally, share_of_ne (Ne.symm hq)]
    | false =>
      refine ⟨m, [.mq_release q, .worker weight none], l,
        by simp [Frame.step, hlive, Memory.handle_grab, hr], hk.spells, fun h => ?_, hk.logged⟩
      by_cases hq : h = q
      · subst hq
        simpa [Frame.tally] using hc.missed (by simp [Service.account, hr])
      · simpa [Frame.tally, share_of_ne (Ne.symm hq)] using hk.counted h

theorem Kept.leave (hk : Kept m l (.leave weight q ret :: fs)) :
    (Frame.leave weight q ret).Keeps m choice fs := by
  obtain ⟨m', rest, b, hstep, hk, -⟩ := hk.context_release [.worker weight ret] q (by
    intro h
    cases ret <;> simp [Frame.tally])
  refine ⟨m', rest ++ [.worker weight ret], l, by simp [Frame.step, hstep], ?_⟩
  rwa [List.append_assoc]

theorem Kept.release (hk : Kept m l (.release q :: fs)) :
    (Frame.release q).Keeps m choice fs := by
  obtain ⟨m', rest, b, hstep, hk, -⟩ := hk.context_release [] q (by
    simp [Frame.tally])
  exact ⟨m', rest, l, by simp [Frame.step, hstep], hk⟩

theorem Kept.failed (hk : Kept m l (.failed q :: fs)) : (Frame.failed q).Keeps m choice fs := by
  obtain ⟨m', rest, b, hstep, hk, -⟩ := hk.context_release [.unlaunched q] q (by
    intro h
    simp only [Frame.tally, tally_cons, tally_nil, add_zero]
    exact share_cons (by simp))
  refine ⟨m', rest ++ [.unlaunched q], l, by simp [Frame.step, hstep], ?_⟩
  rwa [List.append_assoc]

/-- A queue from which the worker takes a message, or that it leaves. -/
theorem Kept.turn (hk : Kept m l (.turn weight q i j :: fs)) :
    (Frame.turn weight q i j).Keeps m choice fs := by
  have hlive := hk.live (q := q) (by simp [Frame.tally]) (by simp [Frame.tally])
  have hc := hk.counted q
  have hl := hk.logged q
  simp only [tally_cons, Frame.tally] at hc
  by_cases hij : i < j
  · have hrelease := (hk.held (q := q) (tally_cons_pos (by simp [Frame.tally]))).1
    rcases (m.services q).queue.skynet_mq_pop_cases with
      ⟨msg, queue, hpop, hcontents, -, hrel, hin⟩ | ⟨queue, hpop, hcontents, hempty, -, hrel, hin⟩
    · refine ⟨m.set q { m.services q with
          queue := queue, taken := (m.services q).taken ++ [msg] },
        [if i = 0 ∧ 0 ≤ weight then .length weight q msg else .call weight q msg i j], l,
        by simp [Frame.step, hij, hlive, hpop], hk.set hk.spells ?_ ⟨?_, ?_, ?_, ?_⟩ ?_⟩
      · have htally : Frame.tally q
            (if i = 0 ∧ 0 ≤ weight then .length weight q msg else .call weight q msg i j) =
            share q q [.ref, .place, .dispatch] := by
          split <;> rfl
        simpa [htally, Service.account, hrel, hin] using hc
      · simp [hl.log, hl.dropped hrelease, hcontents]
      · exact fun _ => hl.dropped hrelease
      · intro hidle
        have := hl.idle (hin ▸ hidle) hrelease
        simp [hcontents] at this
      · intro hf
        have := hl.freed hf
        simp [hcontents] at this
      · intro h hq
        refine ⟨rfl, ?_⟩
        split <;> simp [Frame.tally]
    · refine ⟨m.set q { m.services q with queue := queue }, [.leave weight q none], l,
        by simp [Frame.step, hij, hlive, hpop], hk.set hk.spells ?_ ⟨?_, ?_, ?_, ?_⟩ ?_⟩
      · simpa [Frame.tally, Service.account, hrel, hin] using hc.empty
      · simpa [hcontents, hempty] using hl.log
      · exact fun _ => hl.dropped hrelease
      · exact fun _ _ => hempty
      · exact fun _ => hempty
      · intro h hq
        simp [Frame.tally, share_of_ne (Ne.symm hq)]
  · rcases l with _ | ⟨nq, l⟩
    · refine ⟨m, [.leave weight q (some q)], [], ?_, hk.moved hk.spells ?_ ?_⟩
      · simp [Frame.step, hij, Memory.globalmq_pop, hk.spells.pop_nil]
      · simp [Frame.tally, share]
      · simp [Frame.tally, share]
    · obtain ⟨g, hpop, hg⟩ := hk.spells.pop_cons
      refine ⟨⟨m.services, g⟩, [.back weight q nq], l, ?_, hk.moved hg ?_ ?_⟩
      · simp [Frame.step, hij, Memory.globalmq_pop, hpop]
      · intro h
        simp [Frame.tally, share, List.count_cons]
        split <;> split <;> omega
      · simp [Frame.tally, share]

theorem Kept.length (hk : Kept m l (.length weight q msg :: fs)) :
    (Frame.length weight q msg).Keeps m choice fs := by
  have hlive := hk.live (q := q) (by simp [Frame.tally]) (by simp [Frame.tally])
  refine ⟨m, [.call weight q msg 0 ((m.services q).queue.skynet_mq_length >>> weight.toNat)], l,
    by simp [Frame.step, hlive], ⟨hk.spells, hk.counted, hk.logged⟩⟩

theorem Kept.call (hk : Kept m l (.call weight q msg i j :: fs)) :
    (Frame.call weight q msg i j).Keeps m choice fs := by
  have hlive := hk.live (q := q) (by simp [Frame.tally]) (by simp [Frame.tally])
  have hc := hk.counted q
  have hinit : (m.services q).init = true := by
    have := hc.dispatch (tally_cons_pos (by simp [Frame.tally]))
    simpa [Service.account] using this
  have hl := hk.logged q
  refine ⟨m.set q { m.services q with queue := (m.services q).queue.skynet_mq_overload.2 },
    [.turn weight q (i + 1) j], l, by simp [Frame.step, hlive, hinit, guard],
    hk.set hk.spells hc ⟨hl.log, hl.dropped, hl.idle, hl.freed⟩ fun h hq => ⟨rfl, rfl⟩⟩

theorem Kept.back {nq : Nat} (hk : Kept m l (.back weight q nq :: fs)) :
    (Frame.back weight q nq).Keeps m choice fs := by
  obtain ⟨m', hpush, hk⟩ := hk.globalmq_push [.leave weight q (some nq)] q (by
    intro h
    simp only [Frame.tally, tally_cons, tally_nil, add_zero]
    rw [share_cons (by simp)]
    abel)
  exact ⟨m', _, _, by simp [Frame.step, hpush], hk⟩

theorem Kept.start (hk : Kept m l (.start q :: fs)) : (Frame.start q).Keeps m choice fs := by
  obtain ⟨m', hpush, hk⟩ := hk.globalmq_push [] q (by simp [Frame.tally])
  exact ⟨m', _, _, by simp [Frame.step, hpush], hk⟩

theorem Kept.mq_release (hk : Kept m l (.mq_release q :: fs)) :
    (Frame.mq_release q).Keeps m choice fs := by
  have hlive := hk.live (q := q) (by simp [Frame.tally]) (by simp [Frame.tally])
  cases hr : (m.services q).queue.release with
  | true =>
    refine ⟨m, [.drop_queue q], l, by simp [Frame.step, hlive, hr], hk.spells, fun h => ?_,
      hk.logged⟩
    by_cases hq : h = q
    · subst hq
      have hc := hk.counted h
      simp only [tally_cons, Frame.tally] at hc
      simpa [Frame.tally] using hc.drops (by simp [Service.account, hr])
    · simpa [Frame.tally, share_of_ne (Ne.symm hq)] using hk.counted h
  | false =>
    have hq : q ∉ l := hk.notMem (tally_cons_pos (by simp [Frame.tally]))
    obtain ⟨g, hpush, hg⟩ := hk.spells.push hq
    refine ⟨⟨m.services, g⟩, [], l ++ [q], ?_, hk.moved hg ?_ ?_⟩
    · simp [Frame.step, hlive, hr, Memory.globalmq_push, hpush]
    · intro h
      simp [Frame.tally, share, List.count_singleton]
      split <;> omega
    · simp [Frame.tally, share]

/-- The messages of a queue that is released are dropped, and then the queue is freed. -/
theorem Kept.drop_queue (hk : Kept m l (.drop_queue q :: fs)) :
    (Frame.drop_queue q).Keeps m choice fs := by
  have hlive := hk.live (q := q) (by simp [Frame.tally]) (by simp [Frame.tally])
  have hq : q ∉ l := hk.notMem (tally_cons_pos (by simp [Frame.tally]))
  have hc := hk.counted q
  have hl := hk.logged q
  simp only [tally_cons, Frame.tally] at hc
  have hrelease : (m.services q).queue.release = true := by
    have := hc.drop (Nat.add_pos_left (by simp) _)
    simpa [Service.account] using this
  rcases (m.services q).queue.skynet_mq_pop_cases with
    ⟨msg, queue, hpop, hcontents, -, hrel, hin⟩ | ⟨queue, hpop, hcontents, hempty, -, hrel, hin⟩
  · refine ⟨m.set q { m.services q with
        queue := queue, dropped := (m.services q).dropped ++ [msg] },
      drop_message q msg ++ [.drop_queue q], l, by simp [Frame.step, hlive, hpop],
      hk.set hk.spells ?_ ⟨?_, ?_, ?_, ?_⟩ ?_⟩
    · have htally : tally q (drop_message q msg) = 0 := by
        unfold drop_message
        split <;> simp [Frame.tally]
      simpa [htally, Frame.tally, Service.account, hrel, hin] using hc
    · simp [hl.log, hcontents]
    · intro hnot
      simp [hrel, hrelease] at hnot
    · intro _ hnot
      simp [hrel, hrelease] at hnot
    · intro hf
      have := hl.freed hf
      simp [hcontents] at this
    · intro h hh
      have htally : tally h (drop_message q msg) = 0 := by
        unfold drop_message
        split <;> simp [Frame.tally]
      simp [htally, Frame.tally]
  · refine ⟨m.set q { m.services q with queue := queue, freed := true }, [], l,
      by simp [Frame.step, hlive, hpop, hk.spells.out q hq, guard],
      hk.set hk.spells ?_ ⟨?_, ?_, ?_, ?_⟩ ?_⟩
    · simpa [Service.account, hrel, hin] using hc.free
    · simpa [hcontents, hempty] using hl.log
    · intro hnot
      simp [hrel, hrelease] at hnot
    · exact fun _ _ => hempty
    · exact fun _ => hempty
    · intro h hh
      simp [Frame.tally, share_of_ne (Ne.symm hh)]

/-- A frame that has no share does without a service that is not there. -/
theorem Kept.pop (hk : Kept m l (f :: fs)) (hf : ∀ h, f.tally h = 0) : Kept m l fs :=
  ⟨hk.spells, fun h => by simpa [hf] using hk.counted h, hk.logged⟩

theorem Kept.send (hk : Kept m l (.send q msg :: fs)) :
    (Frame.send q msg).Keeps m choice fs := by
  have hk' := hk.pop fun h => rfl
  by_cases hr : (m.services q).registered = true
  · obtain ⟨m', hgrab, hk'⟩ := hk'.handle_grab (f := .push q msg) hr fun h => rfl
    exact ⟨m', [.push q msg], l, by simp [Frame.step, hgrab], hk'⟩
  · exact ⟨m, [], l, by simp [Frame.step, Memory.handle_grab, hr], hk'⟩

theorem Kept.grab (hk : Kept m l (.grab q :: fs)) : (Frame.grab q).Keeps m choice fs := by
  have hk' := hk.pop fun h => rfl
  by_cases hr : (m.services q).registered = true
  · obtain ⟨m', hgrab, hk'⟩ := hk'.handle_grab (f := .release q) hr fun h => rfl
    exact ⟨m', [.release q], l, by simp [Frame.step, hgrab], hk'⟩
  · exact ⟨m, [], l, by simp [Frame.step, Memory.handle_grab, hr], hk'⟩

theorem Kept.retire (hk : Kept m l (.retire q :: fs)) : (Frame.retire q).Keeps m choice fs :=
  ⟨_, _, l, rfl, ((hk.pop fun _ => rfl).handle_retire q).1⟩

theorem Kept.callback {cb : Bool} (hk : Kept m l (.callback q cb :: fs)) :
    (Frame.callback q cb).Keeps m choice fs := by
  have hk' := hk.pop fun h => rfl
  exact ⟨m.set q { m.services q with cb := cb }, [], l, rfl,
    hk'.set hk.spells (hk'.counted q) (hk.logged q).congr fun h hq => ⟨rfl, rfl⟩⟩

/-- A message for a service whose context is held; its queue gets a place where it had none. -/
theorem Kept.push (hk : Kept m l (.push q msg :: fs)) (hcreated : (m.services q).created = true) :
    (Frame.push q msg).Keeps m choice fs := by
  have hc := hk.counted q
  have hl := hk.logged q
  simp only [tally_cons, Frame.tally] at hc
  obtain ⟨hrelease, hfreed⟩ := hk.held (q := q) (tally_cons_pos (by simp [Frame.tally]))
  have hlive : m.live q = some (m.services q) := by simp [Memory.live, hfreed, hcreated]
  have hpush := hc.push
  have hlogged : Service.Logged { m.services q with
      queue := { (m.services q).queue.put msg with in_global := true },
      pushed := (m.services q).pushed ++ [msg] } := by
    refine ⟨?_, ?_, ?_, ?_⟩
    · show _ = _ ++ ((m.services q).queue.put msg).contents
      simp [hl.log, MessageQueue.contents_put]
    · exact fun _ => hl.dropped hrelease
    · simp
    · simp [hfreed]
  cases hin : (m.services q).queue.in_global with
  | true =>
    refine ⟨_, [.release q], l, by simp [Frame.step, Memory.mq_push, hlive, hin]; rfl,
      hk.set hk.spells ?_ hlogged fun h hq => ⟨rfl, ?_⟩⟩
    · simpa [Service.account, hin, Frame.tally] using hpush
    · simp [Frame.tally]
  | false =>
    have hq : q ∉ l := by
      have hplace := hc.place
      simp only [Service.account, hrelease, hfreed, hin, Bool.toNat_false] at hplace
      exact List.count_eq_zero.mp (by omega)
    obtain ⟨g, hg, hspells⟩ := hk.spells.push hq
    refine ⟨_, [.release q], l ++ [q],
      by simp [Frame.step, Memory.mq_push, hlive, hin, Memory.globalmq_push, Memory.set, hg]; rfl,
      hk.set hspells ?_ hlogged fun h hh => ⟨?_, ?_⟩⟩
    · simpa [Service.account, hin, Frame.tally] using hpush
    · simp [Ne.symm hh]
    · simp [Frame.tally]

/-- The context is gone; its queue gets a place where it had none, to be dropped there. -/
theorem Kept.delete (hk : Kept m l (.delete q :: fs)) : (Frame.delete q).Keeps m choice fs := by
  have hc := hk.counted q
  have hl := hk.logged q
  simp only [tally_cons, Frame.tally] at hc
  obtain ⟨hrelease, hmark⟩ := hc.mark
  replace hrelease : (m.services q).queue.release = false := by
    simpa [Service.account] using hrelease
  have hfreed : (m.services q).freed = false := by
    have := hc.freed
    simpa [Service.account, hrelease] using this
  -- no reference is left to launch it
  have hcreated : (m.services q).created = true := by
    have hone := hc.created
    have href := hc.ref
    have hended := hc.alive
    have hle := tally_le q fs
    simp only [Service.account, Pi.add_apply] at hone href hended
    simp at hone href hended
    refine Bool.toNat_eq_one.mp ?_
    omega
  have hlive : m.live q = some (m.services q) := by simp [Memory.live, hfreed, hcreated]
  have hlogged : Service.Logged { m.services q with
      queue := { (m.services q).queue with release := true } } := by
    refine ⟨hl.log, ?_, ?_, hl.freed⟩
    · simp
    · simp
  cases hin : (m.services q).queue.in_global with
  | true =>
    refine ⟨_, [], l,
      by simp [Frame.step, Memory.mq_mark_release, hlive, hin, hrelease, guard]; rfl,
      hk.set hk.spells ?_ hlogged fun h hh => ⟨rfl, ?_⟩⟩
    · simpa [Service.account, hin] using hmark
    · simp [Frame.tally, share_of_ne (Ne.symm hh)]
  | false =>
    have hq : q ∉ l := by
      have hplace := hc.place
      simp only [Service.account, hrelease, hfreed, hin, Bool.toNat_false] at hplace
      exact List.count_eq_zero.mp (by omega)
    obtain ⟨g, hg, hspells⟩ := hk.spells.push hq
    refine ⟨_, [], l ++ [q],
      by simp [Frame.step, Memory.mq_mark_release, hlive, hin, hrelease, guard,
        Memory.globalmq_push, Memory.set, hg]; rfl,
      hk.set hspells ?_ hlogged fun h hh => ⟨?_, ?_⟩⟩
    · simpa [Service.account, hin] using hmark
    · simp [Ne.symm hh]
    · simp [Frame.tally, share_of_ne (Ne.symm hh)]

theorem Kept.new (hk : Kept m l (.new :: fs)) (hf : (m.services choice.handle).freed = true) :
    Frame.new.Keeps m choice fs := by
  have hk' := hk.pop fun h => rfl
  refine ⟨m.context_new choice.handle, [.create choice.handle], l, rfl,
    hk'.set hk.spells ?_ ⟨rfl, ?_, ?_, ?_⟩ fun h hq => ⟨rfl, ?_⟩⟩
  · exact (hk'.counted choice.handle).new (by simp [Service.account, hf]) (Bool.toNat_le _)
      (tally_le _ _)
  · exact fun _ => rfl
  · exact fun _ _ => rfl
  · exact fun _ => rfl
  · simp [Frame.tally, share_of_ne (Ne.symm hq)]

theorem Kept.create (hk : Kept m l (.create q :: fs)) : (Frame.create q).Keeps m choice fs := by
  have hc := hk.counted q
  simp only [tally_cons, Frame.tally] at hc
  refine ⟨m.mq_create q, [.init q], l, rfl,
    hk.set hk.spells ?_ (hk.logged q).congr fun h hq => ⟨rfl, ?_⟩⟩
  · simpa [Frame.tally, Service.account] using hc.create
  · simp [Frame.tally, share_of_ne (Ne.symm hq)]

theorem Kept.init (hk : Kept m l (.init q :: fs)) : (Frame.init q).Keeps m choice fs := by
  refine ⟨m, [if choice.r = 0 then .launched q else .failed q], l, rfl, ?_⟩
  split <;> exact ⟨hk.spells, hk.counted, hk.logged⟩

/-- A service that has been launched is marked as such, unless it is gone already. -/
theorem Kept.launched (hk : Kept m l (.launched q :: fs)) :
    (Frame.launched q).Keeps m choice fs := by
  obtain ⟨m', rest, ret, hstep, hk, hret⟩ := hk.context_release [.unlaunched q] q (by
    intro h
    simp only [Frame.tally, tally_cons, tally_nil, add_zero]
    exact share_cons (by simp))
  have hc := hk.counted q
  have hother : ∀ h ≠ q, tally h (rest ++ [Frame.start q] ++ fs) =
      tally h (rest ++ ([Frame.unlaunched q] ++ fs)) := by
    intro h hq
    simp [Frame.tally, share_of_ne (Ne.symm hq)]
  have htally : tally q (rest ++ ([Frame.unlaunched q] ++ fs)) =
      share q q [.place, .launch] + (tally q rest + tally q fs) := by
    simp [Frame.tally]
    abel
  have htally' : tally q (rest ++ [Frame.start q] ++ fs) =
      share q q [.place] + (tally q rest + tally q fs) := by
    simp [Frame.tally]
    abel
  rw [htally] at hc
  cases ret with
  | true =>
    refine ⟨m'.set q { m'.services q with init := true }, rest ++ [.start q], l,
      by simp [Frame.step, hstep],
      hk.set hk.spells ?_ (hk.logged q).congr fun h hq => ⟨rfl, hother h hq⟩⟩
    rw [htally']
    exact hc.launched
  | false =>
    refine ⟨m', rest ++ [.start q], l, by simp [Frame.step, hstep], hk.spells, fun h => ?_,
      hk.logged⟩
    by_cases hq : h = q
    · subst hq
      have hzero : (m'.services h).account.registered = 0 := by
        have href := hc.ref
        have : (m'.services h).account.ref = 0 := hret rfl
        omega
      rw [htally']
      exact hc.given_up hzero
    · rw [hother h hq]
      exact hk.counted h

theorem Kept.unlaunched (hk : Kept m l (.unlaunched q :: fs)) :
    (Frame.unlaunched q).Keeps m choice fs := by
  obtain ⟨hk', hr⟩ := hk.handle_retire q
  refine ⟨(m.handle_retire q).1, (m.handle_retire q).2 ++ [.mq_release q], l, rfl, hk'.spells,
    fun h => ?_, hk'.logged⟩
  have hc := hk'.counted h
  by_cases hq : h = q
  · subst hq
    have hzero : ((m.handle_retire h).1.services h).account.registered = 0 := by
      simp [Service.account, hr]
    have htally (f : Frame) : tally h ((m.handle_retire h).2 ++ [f] ++ fs) =
        f.tally h + (tally h (m.handle_retire h).2 + tally h fs) := by
      simp
      abel
    rw [List.append_cons, htally] at hc
    rw [htally]
    exact (hc.given_up hzero).missed hzero
  · simpa [Frame.tally, share_of_ne (Ne.symm hq)] using hc

/-- No step fails, and each keeps the invariant. -/
theorem Kept.step (hk : Kept m l (f :: fs))
    (hnew : f = .new → (m.services choice.handle).freed = true)
    (hpush : ∀ q msg, f = .push q msg → (m.services q).created = true) :
    f.Keeps m choice fs := by
  cases f with
  | worker => exact hk.worker
  | turn => exact hk.turn
  | length => exact hk.length
  | call => exact hk.call
  | back => exact hk.back
  | leave => exact hk.leave
  | mq_release => exact hk.mq_release
  | drop_queue => exact hk.drop_queue
  | send => exact hk.send
  | push => exact hk.push (hpush _ _ rfl)
  | release => exact hk.release
  | delete => exact hk.delete
  | retire => exact hk.retire
  | grab => exact hk.grab
  | callback => exact hk.callback
  | new => exact hk.new (hnew rfl)
  | create => exact hk.create
  | init => exact hk.init
  | launched => exact hk.launched
  | start => exact hk.start
  | failed => exact hk.failed
  | unlaunched => exact hk.unlaunched

theorem Kept.perm (hk : Kept m l fs) (hp : fs.Perm gs) : Kept m l gs :=
  ⟨hk.spells, fun h => tally_perm hp ▸ hk.counted h, hk.logged⟩

/-- The frames of a thread, before those of the others. -/
theorem flatten_perm {threads : List (List Frame)} {thread : Nat} {stack : List Frame}
    (h : threads[thread]? = some stack) :
    threads.flatten.Perm (stack ++ (threads.eraseIdx thread).flatten) := by
  obtain ⟨hlt, rfl⟩ := List.getElem?_eq_some_iff.mp h
  exact (List.getElem_cons_eraseIdx_perm hlt).symm.flatten

theorem flatten_set_perm {threads : List (List Frame)} {thread : Nat} (stack : List Frame)
    (h : thread < threads.length) :
    (threads.set thread stack).flatten.Perm (stack ++ (threads.eraseIdx thread).flatten) :=
  (List.set_perm_cons_eraseIdx h stack).flatten

/-- Whatever threads do, no step fails. -/
theorem World.step_kept {w : World} {op : Op} (hk : Kept w.memory l w.threads.flatten)
    (hok : ok (some w) op) :
    ∃ w' l', w.step op = some w' ∧ Kept w'.memory l' w'.threads.flatten := by
  cases op with
  | run thread choice =>
    rw [World.step]
    split
    · next f rest hstack =>
      have hlt := (List.getElem?_eq_some_iff.mp hstack).1
      have hk' := hk.perm (flatten_perm hstack)
      have hnew : f = .new → (w.memory.services choice.handle).freed = true := by
        rintro rfl
        simpa [ok, World.fresh, World.top, hstack] using hok
      have hpush : ∀ q msg, f = .push q msg → (w.memory.services q).created = true := by
        rintro q msg rfl
        simpa [ok, World.fresh, World.top, hstack] using hok
      obtain ⟨m', gs, l', hstep, hk'⟩ := hk'.step hnew hpush
      refine ⟨⟨m', w.threads.set thread (gs ++ rest)⟩, l', by simp [hstep], ?_⟩
      refine hk'.perm ?_
      have := flatten_set_perm (gs ++ rest) hlt
      rw [List.append_assoc] at this
      exact this.symm
    · exact ⟨w, l, rfl, hk⟩
  | call thread c =>
    rw [World.step]
    split
    · next stack hstack =>
      have hlt := (List.getElem?_eq_some_iff.mp hstack).1
      have hk' := hk.perm (flatten_perm hstack)
      refine ⟨⟨w.memory, w.threads.set thread (c.frame :: stack)⟩, l, rfl, ?_⟩
      have hcall : Kept w.memory l (c.frame :: (stack ++ (w.threads.eraseIdx thread).flatten)) :=
        ⟨hk'.spells, fun h => by cases c <;> simpa [Call.frame, Frame.tally] using hk'.counted h,
          hk'.logged⟩
      exact hcall.perm (flatten_set_perm (c.frame :: stack) hlt).symm
    · exact ⟨w, l, rfl, hk⟩

theorem World.new_kept (weights : List Int) (others : Nat) :
    Kept (World.new weights others).memory [] (World.new weights others).threads.flatten where
  spells := GlobalQueue.spells_init
  counted h := by
    have htally : tally h (World.new weights others).threads.flatten = 0 := by
      induction weights with
      | nil => simp [World.new]
      | cons weight weights ih =>
        refine Eq.trans ?_ ih
        show Frame.tally h (.worker weight none) + _ = _
        exact zero_add _
    rw [htally]
    constructor <;> simp [World.new, Service.account, Service.gone]
  logged h := ⟨rfl, fun _ => rfl, fun _ _ => rfl, fun _ => rfl⟩

/-- What holds in every state that a run reaches. -/
theorem Reached.kept {weights : List Int} {others : Nat} {s : Option World}
    (hr : Reached weights others s) :
    ∃ w l, s = some w ∧ Kept w.memory l w.threads.flatten := by
  refine Machine.Reach.invariant
    (I := fun s => ∃ w l, s = some w ∧ Kept w.memory l w.threads.flatten) hr
    ⟨_, [], rfl, World.new_kept weights others⟩ ?_
  rintro _ op ⟨w, l, rfl, hk⟩ hok
  obtain ⟨w', l', hstep, hk'⟩ := World.step_kept hk hok
  exact ⟨w', l', hstep, hk'⟩

/-- The frame is in the callback of a service, or in its start. -/
def Frame.runs (h : Nat) : Frame → Bool
  | call _ q _ _ _ | init q => q = h
  | _ => false

theorem countP_runs_le (h : Nat) (fs : List Frame) :
    fs.countP (Frame.runs h) ≤ tally h fs .place := by
  induction fs with
  | nil => simp
  | cons f fs ih =>
    have hf : (if f.runs h then 1 else 0) ≤ f.tally h .place := by
      cases f <;> simp [Frame.runs, Frame.tally, share]
    rw [List.countP_cons, tally_cons, Pi.add_apply]
    omega

/-- In every run no assertion fails, no count of references goes below 0 and no queue is used that
has been freed; a service is run by one thread at a time, and gets messages once it has been
launched and until its queue is freed. -/
theorem one_at_a_time {weights : List Int} {others : Nat} {s : Option World}
    (hr : Reached weights others s) :
    ∃ w, s = some w ∧ ∀ h, w.threads.flatten.countP (Frame.runs h) ≤ 1 ∧
      ∀ weight msg i n, Frame.call weight h msg i n ∈ w.threads.flatten →
        (w.memory.services h).init = true ∧ (w.memory.services h).freed = false := by
  obtain ⟨w, l, rfl, hk⟩ := hr.kept
  refine ⟨w, rfl, fun h => ⟨?_, fun weight msg i n hmem => ?_⟩⟩
  · have hle := countP_runs_le h w.threads.flatten
    have hplace := (hk.counted h).place
    have hflags := (hk.counted h).flags.2.2
    have : (w.memory.services h).account.release ≤ 1 := Bool.toNat_le _
    omega
  · obtain ⟨before, after, hflat⟩ := List.append_of_mem hmem
    have hk' := hk.perm (hflat ▸ List.perm_middle)
    refine ⟨?_, (hk'.held (q := h) (tally_cons_pos (by simp [Frame.tally]))).2⟩
    have := (hk'.counted h).dispatch (tally_cons_pos (by simp [Frame.tally]))
    simpa [Service.account] using this

/-- A service is launched and gets two messages, of which a worker dispatches the first. -/
def sampleOps : List Op :=
  [.call 1 .new, .run 1 ⟨5, 0⟩, .run 1 ⟨0, 0⟩, .run 1 ⟨0, 0⟩, .run 1 ⟨0, 0⟩, .run 1 ⟨0, 0⟩,
    .call 1 (.send 5 ⟨1, 1, none, 0⟩), .run 1 ⟨0, 0⟩, .run 1 ⟨0, 0⟩,
    .call 1 (.send 5 ⟨1, 2, none, 0⟩), .run 1 ⟨0, 0⟩, .run 1 ⟨0, 0⟩,
    .run 0 ⟨0, 0⟩, .run 0 ⟨0, 0⟩, .run 0 ⟨0, 0⟩, .run 0 ⟨0, 0⟩]

theorem sampleOps_allowed : Machine.Allowed exec ok (some (World.new [0] 1)) sampleOps :=
  ⟨trivial, rfl, rfl, rfl, rfl, rfl, trivial, rfl, rfl, trivial, rfl, rfl, rfl, rfl, rfl, rfl, trivial⟩

theorem one_at_a_time_sample : ∃ w, sampleOps.foldl exec (some (World.new [0] 1)) = some w ∧
    ∀ h, w.threads.flatten.countP (Frame.runs h) ≤ 1 ∧
      ∀ weight msg i n, Frame.call weight h msg i n ∈ w.threads.flatten →
        (w.memory.services h).init = true ∧ (w.memory.services h).freed = false :=
  one_at_a_time (Machine.Reach.init.run sampleOps sampleOps_allowed)

/-- In every run what was put into the queue of a service is what was dispatched, then what was
dropped, then what is in the queue, in order. A queue with messages has one place, in the global
queue or with a thread; messages are dropped only after the last reference, and none is left in a
queue that is freed. -/
theorem in_order {weights : List Int} {others : Nat} {s : Option World}
    (hr : Reached weights others s) :
    ∃ w l, s = some w ∧ w.memory.global.Spells l ∧ ∀ h,
      (w.memory.services h).pushed = (w.memory.services h).taken ++
        (w.memory.services h).dropped ++ (w.memory.services h).queue.contents ∧
      ((w.memory.services h).queue.contents ≠ [] →
        l.count h + tally h w.threads.flatten .place = 1) ∧
      ((w.memory.services h).dropped ≠ [] →
        (w.memory.services h).ref = 0 ∧ (w.memory.services h).registered = false) ∧
      ((w.memory.services h).freed = true → (w.memory.services h).queue.contents = []) := by
  obtain ⟨w, l, rfl, hk⟩ := hr.kept
  refine ⟨w, l, rfl, hk.spells, fun h => ?_⟩
  have hc := hk.counted h
  have hl := hk.logged h
  refine ⟨hl.log, fun hne => ?_, fun hne => ?_, hl.freed⟩
  · have hplace := hc.place
    have hfreed : (w.memory.services h).freed = false := by
      cases hf : (w.memory.services h).freed with
      | false => rfl
      | true => exact absurd (hl.freed hf) hne
    simp only [Service.account, hfreed, Bool.toNat_false, Nat.add_zero] at hplace
    rw [hplace]
    cases hin : (w.memory.services h).queue.in_global <;>
      cases hrel : (w.memory.services h).queue.release <;> simp
    exact absurd (hl.idle hin hrel) hne
  · have hrel : (w.memory.services h).queue.release = true := by
      cases hrel : (w.memory.services h).queue.release with
      | true => rfl
      | false => exact absurd (hl.dropped hrel) hne
    have href : (w.memory.services h).ref = 0 := by
      by_contra h0
      have := hc.alive h0
      simp [Service.account, hrel] at this
    refine ⟨href, ?_⟩
    have := hc.ref
    simp only [Service.account, href] at this
    exact Bool.toNat_eq_zero.mp (by omega)

theorem in_order_sample : ∃ w l, sampleOps.foldl exec (some (World.new [0] 1)) = some w ∧
    w.memory.global.Spells l ∧
      (w.memory.services 5).pushed = (w.memory.services 5).taken ++
        (w.memory.services 5).dropped ++ (w.memory.services 5).queue.contents ∧
      ((w.memory.services 5).queue.contents ≠ [] →
        l.count 5 + tally 5 w.threads.flatten .place = 1) := by
  obtain ⟨w, l, hw, hl, h⟩ := in_order (Machine.Reach.init.run sampleOps sampleOps_allowed)
  exact ⟨w, l, hw, hl, (h 5).1, (h 5).2.1⟩

end SkynetHotfix.Skynet
