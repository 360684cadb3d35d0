import Mathlib.Data.List.Nodup
import SkynetHotfix.Lib.Circular

/-!
# Message queues

`skynet_mq.c`: the queue of a service, a circular buffer that doubles when it is full, and the
global queue of the queues that a worker has to look at, which are linked by their `next`.

The messages in a queue are a `Circular.window`: a push puts one behind them, whether or not the
buffer has to grow (`contents_put`), and a pop takes the first (`skynet_mq_pop_cases`). What the
links of the global queue spell (`Spells`) goes in at the end and comes out at the start, and the
assertions on the links hold as long as no queue is put there twice.
-/

namespace SkynetHotfix.Skynet

open Function (update)
open Circular

/-- `struct skynet_message`; no `data` is NULL. -/
structure Message where
  source : Nat
  session : Int
  data : Option (List UInt8)
  sz : Nat
deriving DecidableEq, Inhabited

abbrev DEFAULT_QUEUE_SIZE : Nat := 64
abbrev MQ_OVERLOAD : Nat := 1024

/-- `struct message_queue`, less its `next`. -/
structure MessageQueue where
  handle : Nat
  cap : Nat
  head : Nat
  tail : Nat
  release : Bool
  in_global : Bool
  overload : Nat
  overload_threshold : Nat
  queue : Nat → Message
  head_lt : head < cap
  tail_lt : tail < cap
  threshold_pos : 0 < overload_threshold

namespace MessageQueue

def skynet_mq_create (handle : Nat) : MessageQueue where
  handle := handle
  cap := DEFAULT_QUEUE_SIZE
  head := 0
  tail := 0
  release := false
  in_global := true
  overload := 0
  overload_threshold := MQ_OVERLOAD
  queue := fun _ => default
  head_lt := by decide
  tail_lt := by decide
  threshold_pos := by decide

def skynet_mq_length (q : MessageQueue) : Nat :=
  if q.head ≤ q.tail then q.tail - q.head else q.tail + q.cap - q.head

/-- `skynet_mq_overload`: what it returns, and the queue. -/
def skynet_mq_overload (q : MessageQueue) : Nat × MessageQueue :=
  (q.overload, { q with overload := 0 })

/-- The loop of `skynet_mq_pop`, `n` turns of it: `length` of them are enough, as the threshold
doubles. -/
def raise (length : Nat) : (n overload threshold : Nat) → Nat × Nat
  | 0, overload, threshold => (overload, threshold)
  | n + 1, overload, threshold =>
    if length > threshold then raise length n length (threshold * 2) else (overload, threshold)

theorem raise_pos (length n overload : Nat) {threshold : Nat} (h : 0 < threshold) :
    0 < (raise length n overload threshold).2 := by
  induction n generalizing overload threshold with
  | zero => exact h
  | succ n ih =>
    rw [raise]
    split
    · exact ih _ (by omega)
    · exact h

def skynet_mq_pop (q : MessageQueue) : Option Message × MessageQueue :=
  if q.head ≠ q.tail then
    let head := if q.head + 1 ≥ q.cap then 0 else q.head + 1
    let length := if q.tail < head then q.tail + q.cap - head else q.tail - head
    let raised := raise length length q.overload q.overload_threshold
    (some (q.queue q.head),
      { q with
        head := head
        overload := raised.1
        overload_threshold := raised.2
        head_lt := by have := q.head_lt; grind
        threshold_pos := raise_pos _ _ _ q.threshold_pos })
  else
    (none, { q with overload_threshold := MQ_OVERLOAD, threshold_pos := by decide,
                    in_global := false })

/-- The cells from the old `cap` on are written before they are read. -/
def expand_queue (q : MessageQueue) : MessageQueue :=
  { q with
    queue := fun i => q.queue ((q.head + i) % q.cap)
    head := 0
    tail := q.cap
    cap := q.cap * 2
    head_lt := by have := q.head_lt; omega
    tail_lt := by have := q.head_lt; omega }

def store (q : MessageQueue) (message : Message) : MessageQueue :=
  { q with
    queue := update q.queue q.tail message
    tail := if q.tail + 1 ≥ q.cap then 0 else q.tail + 1
    tail_lt := by have := q.tail_lt; grind }

/-- `skynet_mq_push`, what it does to the buffer. -/
def put (q : MessageQueue) (message : Message) : MessageQueue :=
  let q := q.store message
  if q.head = q.tail then q.expand_queue else q

/-- The messages in the queue. -/
def contents (q : MessageQueue) : List Message :=
  window q.queue q.cap q.head q.skynet_mq_length

variable {q : MessageQueue} {message : Message}

theorem length_lt (q : MessageQueue) : q.skynet_mq_length < q.cap := by
  have := q.head_lt
  have := q.tail_lt
  rw [skynet_mq_length]
  split <;> omega

/-- `tail` is behind the messages. -/
theorem tail_eq (q : MessageQueue) : q.tail = (q.head + q.skynet_mq_length) % q.cap := by
  have hhead := q.head_lt
  have htail := q.tail_lt
  rw [skynet_mq_length]
  split
  · rw [Nat.add_sub_cancel' ‹_›, Nat.mod_eq_of_lt htail]
  · rw [show q.head + (q.tail + q.cap - q.head) = q.tail + q.cap by omega, Nat.add_mod_right,
      Nat.mod_eq_of_lt htail]

/-- The next cell, round the end. -/
theorem wrap {a cap : Nat} (h : a < cap) :
    (if a + 1 ≥ cap then 0 else a + 1) = (a + 1) % cap := by
  split
  · rw [show a + 1 = cap by omega, Nat.mod_self]
  · exact (Nat.mod_eq_of_lt (by omega)).symm

@[simp] theorem contents_create (handle : Nat) : (skynet_mq_create handle).contents = [] := rfl

@[simp] theorem put_handle : (q.put message).handle = q.handle := by
  rw [put]
  split <;> rfl

@[simp] theorem put_release : (q.put message).release = q.release := by
  rw [put]
  split <;> rfl

@[simp] theorem put_in_global : (q.put message).in_global = q.in_global := by
  rw [put]
  split <;> rfl

/-- A message goes behind the others, also where the buffer grows. -/
theorem contents_put (q : MessageQueue) (message : Message) :
    (q.put message).contents = q.contents ++ [message] := by
  have hhead := q.head_lt
  have htail := q.tail_lt
  have hlt := q.length_lt
  have hput := window_put q.queue q.head message hlt
  rw [← tail_eq] at hput
  have hstored : q.tail + 1 < q.cap ∧ (q.store message).tail = q.tail + 1 ∨
      q.tail + 1 = q.cap ∧ (q.store message).tail = 0 := by
    by_cases hend : q.tail + 1 ≥ q.cap
    · exact .inr ⟨by omega, if_pos hend⟩
    · exact .inl ⟨by omega, if_neg hend⟩
  show window _ _ _ _ = window _ _ _ _ ++ [message]
  rw [← hput, put]
  split
  · next hfull =>
    change q.head = _ at hfull
    have hlen : q.skynet_mq_length + 1 = q.cap := by
      rw [skynet_mq_length]
      split <;> omega
    rw [show (q.store message).expand_queue.skynet_mq_length = q.cap by
      simp [skynet_mq_length, expand_queue, store], hlen]
    refine window_copy fun i hi => ?_
    show update q.queue q.tail message ((q.head + (0 + i) % (q.cap * 2)) % q.cap) = _
    rw [Nat.zero_add, Nat.mod_eq_of_lt (show i < q.cap * 2 by omega)]
  · next hfull =>
    change ¬q.head = _ at hfull
    have hlen : (q.store message).skynet_mq_length = q.skynet_mq_length + 1 := by
      show (if q.head ≤ (q.store message).tail then (q.store message).tail - q.head
        else (q.store message).tail + q.cap - q.head) = _
      rw [skynet_mq_length]
      split <;> split <;> omega
    rw [hlen]
    rfl

/-- A pop takes the first message, or clears `in_global` where there is none. -/
theorem skynet_mq_pop_cases (q : MessageQueue) :
    (∃ message q', q.skynet_mq_pop = (some message, q') ∧ q.contents = message :: q'.contents ∧
      q'.handle = q.handle ∧ q'.release = q.release ∧ q'.in_global = q.in_global) ∨
    ∃ q', q.skynet_mq_pop = (none, q') ∧ q.contents = [] ∧ q'.contents = [] ∧
      q'.handle = q.handle ∧ q'.release = q.release ∧ q'.in_global = false := by
  have hhead := q.head_lt
  have htail := q.tail_lt
  rw [skynet_mq_pop]
  split
  · next hne =>
    refine .inl ⟨_, _, rfl, ?_, rfl, rfl, rfl⟩
    have hlen : q.skynet_mq_length =
        (if q.tail < (if q.head + 1 ≥ q.cap then 0 else q.head + 1) then
          q.tail + q.cap - (if q.head + 1 ≥ q.cap then 0 else q.head + 1)
        else q.tail - (if q.head + 1 ≥ q.cap then 0 else q.head + 1)) + 1 := by
      rw [skynet_mq_length]
      split <;> split <;> split <;> omega
    rw [contents, hlen, window_succ, Nat.mod_eq_of_lt hhead, contents]
    refine congrArg _ ?_
    dsimp only
    rw [← window_mod, ← wrap hhead]
    congr 1
    unfold skynet_mq_length
    dsimp only
    split <;> split <;> split <;> omega
  · next heq =>
    have hcontents : q.contents = [] := by
      rw [contents, skynet_mq_length, not_not.mp heq]
      simp
    exact .inr ⟨_, rfl, hcontents, hcontents, rfl, rfl, rfl⟩

end MessageQueue

/-- `struct global_queue`, with the `next` of every queue; a queue is known by its handle. -/
structure GlobalQueue where
  head : Option Nat
  tail : Option Nat
  next : Nat → Option Nat

namespace GlobalQueue

/-- `skynet_mq_init` -/
def skynet_mq_init : GlobalQueue := ⟨none, none, fun _ => none⟩

/-- `none` where the assertion fails. -/
def skynet_globalmq_push (g : GlobalQueue) (queue : Nat) : Option GlobalQueue := do
  guard (g.next queue = none)
  match g.tail with
  | some tail => some { g with next := update g.next tail (some queue), tail := some queue }
  | none => some { g with head := some queue, tail := some queue }

def skynet_globalmq_pop (g : GlobalQueue) : Option (Option Nat × GlobalQueue) :=
  match g.head with
  | none => some (none, g)
  | some mq => do
    let head := g.next mq
    guard (head = none → some mq = g.tail)
    some (some mq, ⟨head, if head = none then none else g.tail, update g.next mq none⟩)

/-- The links spell the queues in `l`. -/
structure Spells (g : GlobalQueue) (l : List Nat) : Prop where
  head : g.head = l.head?
  tail : g.tail = l.getLast?
  next : ∀ l₁ q l₂, l = l₁ ++ q :: l₂ → g.next q = l₂.head?
  out : ∀ q ∉ l, g.next q = none
  nodup : l.Nodup

variable {g : GlobalQueue} {l : List Nat} {queue : Nat}

theorem spells_init : skynet_mq_init.Spells [] where
  head := rfl
  tail := rfl
  next l₁ q l₂ h := by simp at h
  out _ _ := rfl
  nodup := .nil

/-- A queue that is not there goes to the end. -/
theorem Spells.push (h : g.Spells l) (hq : queue ∉ l) :
    ∃ g', g.skynet_globalmq_push queue = some g' ∧ g'.Spells (l ++ [queue]) := by
  have hout := h.out queue hq
  have hnodup : (l ++ [queue]).Nodup := List.nodup_append'.mpr ⟨h.nodup, by simp, by simpa using hq⟩
  rcases List.eq_nil_or_concat' l with rfl | ⟨l, t, rfl⟩
  · refine ⟨{ g with head := some queue, tail := some queue }, ?_, rfl, rfl, ?_, ?_, hnodup⟩
    · simp [skynet_globalmq_push, hout, h.tail, guard]
    · intro l₁ q l₂ heq
      rcases l₁ with _ | ⟨a, l₁⟩ <;> simp at heq
      obtain ⟨rfl, rfl⟩ := heq
      exact hout
    · exact fun q _ => h.out q (by simp)
  · have htail : g.tail = some t := by simp [h.tail]
    have htq : queue ≠ t := fun e => hq (by simp [e])
    have htl : t ∉ l := by
      have := h.nodup
      rw [List.nodup_append'] at this
      simpa using this.2.2
    refine ⟨{ g with next := update g.next t (some queue), tail := some queue }, ?_, ?_, ?_, ?_,
      ?_, hnodup⟩
    · simp [skynet_globalmq_push, hout, htail, guard]
    · rw [List.append_assoc]
      simpa [List.head?_append] using h.head
    · simp
    · intro l₁ q l₂ heq
      rcases List.eq_nil_or_concat' l₂ with rfl | ⟨l₂, b, rfl⟩
      · obtain ⟨-, hb⟩ := List.append_inj' heq rfl
        obtain rfl := List.singleton_inj.mp hb
        exact (Function.update_of_ne htq _ _).trans hout
      · rw [← List.cons_append, ← List.append_assoc] at heq
        obtain ⟨hl, hb⟩ := List.append_inj' heq rfl
        obtain rfl := List.singleton_inj.mp hb
        rcases List.eq_nil_or_concat' l₂ with rfl | ⟨l₂, c, rfl⟩
        · obtain ⟨-, ht⟩ := List.append_inj' hl rfl
          rw [List.singleton_inj.mp ht]
          simp
        · have hqt : q ≠ t := by
            rintro rfl
            rw [← List.cons_append, ← List.append_assoc] at hl
            obtain ⟨hl, -⟩ := List.append_inj' hl rfl
            simp [hl] at htl
          refine (Function.update_of_ne hqt _ _).trans ?_
          rw [h.next l₁ q (l₂ ++ [c]) hl]
          simp [List.head?_append]
    · intro q hql
      have hqt : q ≠ t := fun e => hql (by simp [e])
      dsimp only
      rw [Function.update_of_ne hqt]
      exact h.out q fun hm => hql (List.mem_append_left _ hm)

theorem Spells.pop_nil (h : g.Spells []) : g.skynet_globalmq_pop = some (none, g) := by
  simp [skynet_globalmq_pop, h.head]

/-- The first queue comes out. -/
theorem Spells.pop_cons (h : g.Spells (queue :: l)) :
    ∃ g', g.skynet_globalmq_pop = some (some queue, g') ∧ g'.Spells l := by
  have hnext : g.next queue = l.head? := h.next [] queue l rfl
  obtain ⟨hq, hnodup⟩ := List.nodup_cons.mp h.nodup
  have htail : g.tail = some (l.getLast?.getD queue) := by
    rw [h.tail, List.getLast?_cons]
  refine ⟨⟨g.next queue, if g.next queue = none then none else g.tail, update g.next queue none⟩,
    ?_, hnext, ?_, ?_, ?_, hnodup⟩
  · have hguard : g.next queue = none → some queue = g.tail := by
      intro hnone
      rw [hnext, List.head?_eq_none_iff] at hnone
      rw [htail, hnone]
      rfl
    simp only [skynet_globalmq_pop, h.head, List.head?_cons, guard, if_pos hguard]
    rfl
  · dsimp only
    rw [hnext, h.tail]
    cases l with
    | nil => rfl
    | cons a l => simp
  · intro l₁ q l₂ heq
    have hne : q ≠ queue := fun e => hq (by simp [heq, e])
    dsimp only
    rw [Function.update_of_ne hne]
    exact h.next (queue :: l₁) q l₂ (by simp [heq])
  · intro q hql
    dsimp only
    by_cases hne : q = queue
    · simp [hne]
    · rw [Function.update_of_ne hne]
      exact h.out q (by simp [hne, hql])

end GlobalQueue

end SkynetHotfix.Skynet
