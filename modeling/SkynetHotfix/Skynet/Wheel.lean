import Mathlib.Data.Nat.Bitwise
import SkynetHotfix.Lib.Buckets
import SkynetHotfix.Lib.Machine

/-!
# The timing wheel

`skynet_timer.c`, which `skynet.timeout` and `skynet.sleep` rest on. A timer sits in a list of the
near wheel, or of one of four levels, by the bits in which its time and the present one differ
(`place`); a tick that carries into a level deals one list of it again (`timer_shift`). The time is
one of 32 bits, and wraps.

Other threads add timers whenever the timer thread does not hold the lock, also between the messages
that it sends. For every run the lists are the pending timers dealt by their place (`Kept`), so that
what is sent is, tick by tick, what is due in the tick, in the order in which it was added
(`sent_when_due`).
-/

namespace SkynetHotfix.Skynet.Wheel

open Function (update)
open Buckets

variable {E : Type}

abbrev TIME_NEAR_SHIFT : Nat := 8
abbrev TIME_NEAR : Nat := 1 <<< TIME_NEAR_SHIFT
abbrev TIME_LEVEL_SHIFT : Nat := 6
abbrev TIME_LEVEL : Nat := 1 <<< TIME_LEVEL_SHIFT
abbrev TIME_NEAR_MASK : Nat := TIME_NEAR - 1
abbrev TIME_LEVEL_MASK : Nat := TIME_LEVEL - 1

/-- `struct timer_node`, with the event behind it. -/
structure Node (E : Type) where
  expire : Nat
  event : E

/-- `near[i]` and `t[level][idx]` -/
inductive Place
  | near (i : Nat)
  | far (level idx : Nat)
deriving DecidableEq

/-- `struct timer`, the lists by their place. -/
structure Timer (E : Type) where
  lists : Place → List (Node E)
  time : Nat

/-- `timer_create_timer` -/
def create : Timer E := ⟨fun _ => [], 0⟩

/-- The loop of `add_node` from level `i` on, of which `n` turns are left. -/
def level (time current_time : Nat) : (n i mask : Nat) → Nat
  | 0, i, _ => i
  | n + 1, i, mask =>
    if time ||| (mask - 1) = current_time ||| (mask - 1) then i
    else level time current_time n (i + 1) (mask <<< TIME_LEVEL_SHIFT)

/-- Where `add_node` puts a timer. -/
def place (time current_time : Nat) : Place :=
  if time ||| TIME_NEAR_MASK = current_time ||| TIME_NEAR_MASK then
    .near (time &&& TIME_NEAR_MASK)
  else
    let i := level time current_time 3 0 (TIME_NEAR <<< TIME_LEVEL_SHIFT)
    .far i ((time >>> (TIME_NEAR_SHIFT + i * TIME_LEVEL_SHIFT)) &&& TIME_LEVEL_MASK)

/-- `link` -/
def link (lists : Place → List (Node E)) (p : Place) (node : Node E) : Place → List (Node E) :=
  update lists p (lists p ++ [node])

def add_node (T : Timer E) (node : Node E) : Timer E :=
  { T with lists := link T.lists (place node.expire T.time) node }

/-- `timer_add` -/
def timer_add (T : Timer E) (event : E) (time : Nat) : Timer E :=
  add_node T ⟨(time + T.time) % 2 ^ 32, event⟩

def move_list (T : Timer E) (level idx : Nat) : Timer E :=
  (T.lists (.far level idx)).foldl add_node
    { T with lists := update T.lists (.far level idx) [] }

/-- The loop of `timer_shift`; it ends within four turns, since `ct` is not 0. -/
def shiftLoop (T : Timer E) (ct : Nat) : (n mask time i : Nat) → Timer E
  | 0, _, _, _ => T
  | n + 1, mask, time, i =>
    if ct &&& (mask - 1) = 0 then
      let idx := time &&& TIME_LEVEL_MASK
      if idx ≠ 0 then move_list T i idx
      else shiftLoop T ct n (mask <<< TIME_LEVEL_SHIFT) (time >>> TIME_LEVEL_SHIFT) (i + 1)
    else T

def timer_shift (T : Timer E) : Timer E :=
  let ct := (T.time + 1) % 2 ^ 32
  let T := { T with time := ct }
  if ct = 0 then move_list T 3 0 else shiftLoop T ct 4 TIME_NEAR (ct >>> TIME_NEAR_SHIFT) 0

/-- Where the timer thread is: out of `timer_update`, or in `dispatch_list` of its first or second
`timer_execute`, without the lock. -/
inductive Pc (E : Type)
  | idle
  | dispatching (shifted : Bool) (current : List (Node E))

/-- The timer and its thread; what was added, with the tick in which it is due, and what was sent,
with the tick in which it was. -/
structure World (E : Type) where
  timer : Timer E
  pc : Pc E
  ticks : Nat
  added : List (Nat × E)
  log : List (Nat × E)

def World.new : World E := ⟨create, .idle, 0, [], []⟩

/-- The second `timer_execute`, with the lock. -/
def World.executeShifted (w : World E) : World E :=
  let idx := w.timer.time &&& TIME_NEAR_MASK
  match w.timer.lists (.near idx) with
  | [] => { w with pc := .idle }
  | current =>
    { w with
      timer := { w.timer with lists := update w.timer.lists (.near idx) [] }
      pc := .dispatching true current }

/-- The first one, and what follows when it finds nothing. -/
def World.executeFirst (w : World E) : World E :=
  let idx := w.timer.time &&& TIME_NEAR_MASK
  match w.timer.lists (.near idx) with
  | [] => { w with timer := timer_shift w.timer, ticks := w.ticks + 1 }.executeShifted
  | current =>
    { w with
      timer := { w.timer with lists := update w.timer.lists (.near idx) [] }
      pc := .dispatching false current }

/-- A thread calls `skynet_timeout` with a positive time, or the timer thread goes on in
`timer_update` until it gives the lock away or has sent a message. -/
inductive Op (E : Type)
  | timeout (event : E) (time : Nat)
  | update

def World.exec (w : World E) : Op E → World E
  | .timeout event time =>
    { w with
      timer := timer_add w.timer event time
      added := w.added ++ [(w.ticks + time, event)] }
  | .update =>
    match w.pc with
    | .idle => w.executeFirst
    | .dispatching shifted (node :: current) =>
      { w with pc := .dispatching shifted current, log := w.log ++ [(w.ticks, node.event)] }
    | .dispatching false [] => w.executeFirst
    | .dispatching true [] => w.executeShifted

/-- The time is a positive `int`. -/
def World.Legal (_ : World E) : Op E → Prop
  | .timeout _ time => 0 < time ∧ time < 2 ^ 31
  | .update => True

/-! ## Places -/

/-- Two numbers agree above the lowest `k` bits. -/
theorem or_mask_eq_iff (a b k : Nat) :
    a ||| (2 ^ k - 1) = b ||| (2 ^ k - 1) ↔ a / 2 ^ k = b / 2 ^ k := by
  have hdiv : ∀ c, (c ||| (2 ^ k - 1)) / 2 ^ k = c / 2 ^ k := by
    intro c
    have hmask : (2 ^ k - 1) / 2 ^ k = 0 :=
      Nat.div_eq_of_lt (Nat.sub_lt (Nat.two_pow_pos k) Nat.one_pos)
    rw [Nat.or_div_two_pow, hmask, Nat.or_zero]
  constructor
  · intro h
    rw [← hdiv a, h, hdiv b]
  · intro h
    refine Nat.eq_of_testBit_eq fun i => ?_
    rw [Nat.testBit_or, Nat.testBit_or, Nat.testBit_two_pow_sub_one]
    by_cases hi : i < k
    · simp [hi]
    · have hbit : ∀ c, c.testBit i = (c / 2 ^ k).testBit (i - k) := by
        intro c
        rw [Nat.testBit_div_two_pow, Nat.sub_add_cancel (by omega)]
      rw [hbit a, h, ← hbit b]

/-- What is left of a time above the near wheel and `k` levels. -/
def block (k x : Nat) : Nat := x / 2 ^ (8 + 6 * k)

theorem block_succ (k x : Nat) : block (k + 1) x = block k x / 64 := by
  rw [block, block, Nat.div_div_eq_div_mul, ← Nat.pow_add 2 _ 6]
  rfl

theorem block_eq_of_le {k k' x y : Nat} (hk : k ≤ k') (h : block k x = block k y) :
    block k' x = block k' y := by
  induction hk with
  | refl => exact h
  | step _ ih => rw [block_succ, block_succ, ih]

theorem block_four {x : Nat} (hx : x < 2 ^ 32) : block 4 x = 0 := Nat.div_eq_of_lt hx

/-- The place by the blocks in which the times agree. -/
theorem place_eq (e T : Nat) : place e T =
    if block 0 e = block 0 T then .near (e % 256)
    else if block 1 e = block 1 T then .far 0 (block 0 e % 64)
    else if block 2 e = block 2 T then .far 1 (block 1 e % 64)
    else if block 3 e = block 3 T then .far 2 (block 2 e % 64)
    else .far 3 (block 3 e % 64) := by
  have hlevel : level e T 3 0 (TIME_NEAR <<< TIME_LEVEL_SHIFT) =
      if block 1 e = block 1 T then 0 else if block 2 e = block 2 T then 1
      else if block 3 e = block 3 T then 2 else 3 := by
    simp only [block, ← or_mask_eq_iff]
    rfl
  have hidx : ∀ k, (e >>> (TIME_NEAR_SHIFT + k * TIME_LEVEL_SHIFT)) &&& TIME_LEVEL_MASK =
      block k e % 64 := by
    intro k
    rw [Nat.shiftRight_eq_div_pow, Nat.mul_comm k]
    exact Nat.and_two_pow_sub_one_eq_mod _ 6
  have hnear : e ||| TIME_NEAR_MASK = T ||| TIME_NEAR_MASK ↔ block 0 e = block 0 T :=
    or_mask_eq_iff e T 8
  have hand : e &&& TIME_NEAR_MASK = e % 256 := Nat.and_two_pow_sub_one_eq_mod e 8
  rw [place, hlevel, hand]
  simp only [hnear, hidx]
  split_ifs <;> rfl

/-- A timer is in the level above which its time agrees with the present. -/
theorem place_far {e T k : Nat} (hk : k ≤ 3) (hne : block k e ≠ block k T)
    (heq : block (k + 1) e = block (k + 1) T) : place e T = .far k (block k e % 64) := by
  have hbelow : ∀ j ≤ k, block j e ≠ block j T := fun j hj h => hne (block_eq_of_le hj h)
  rw [place_eq]
  obtain rfl | rfl | rfl | rfl : k = 0 ∨ k = 1 ∨ k = 2 ∨ k = 3 := by omega
  · rw [if_neg (hbelow 0 (by omega)), if_pos heq]
  · rw [if_neg (hbelow 0 (by omega)), if_neg (hbelow 1 (by omega)), if_pos heq]
  · rw [if_neg (hbelow 0 (by omega)), if_neg (hbelow 1 (by omega)), if_neg (hbelow 2 (by omega)),
      if_pos heq]
  · rw [if_neg (hbelow 0 (by omega)), if_neg (hbelow 1 (by omega)), if_neg (hbelow 2 (by omega)),
      if_neg (hbelow 3 (by omega))]

theorem place_near {e T : Nat} (h : block 0 e = block 0 T) : place e T = .near (e % 256) := by
  rw [place_eq, if_pos h]

/-- In each time there is one of the two. -/
theorem block_cases {e T : Nat} (he : e < 2 ^ 32) (hT : T < 2 ^ 32) : block 0 e = block 0 T ∨
    ∃ k ≤ 3, block k e ≠ block k T ∧ block (k + 1) e = block (k + 1) T := by
  by_contra! h
  obtain ⟨h₀, h⟩ := h
  have h₁ := h 0 (by omega) h₀
  have h₂ := h 1 (by omega) h₁
  have h₃ := h 2 (by omega) h₂
  exact h 3 (by omega) h₃ (by rw [block_four he, block_four hT])

/-- Only what is due now is in the list of the present. -/
theorem place_due {e T : Nat} : place e T = .near (T % 256) ↔ e = T := by
  rw [place_eq]
  constructor
  · intro h
    split_ifs at h with hblock
    · rw [Place.near.injEq] at h
      rw [block, block] at hblock
      omega
  · rintro rfl
    rw [if_pos rfl]

/-- The time of a timer that is due within 2^31 ticks, but not now. -/
def Ahead (e T : Nat) : Prop :=
  e < 2 ^ 32 ∧ (T < e ∧ e < T + 2 ^ 31 ∨ e + 2 ^ 31 < T)

/-- The level into which the time carries, and the list there. -/
def carry (ct : Nat) : Option (Nat × Nat) :=
  if ct % 256 ≠ 0 then none
  else if block 0 ct % 64 ≠ 0 then some (0, block 0 ct % 64)
  else if block 1 ct % 64 ≠ 0 then some (1, block 1 ct % 64)
  else if block 2 ct % 64 ≠ 0 then some (2, block 2 ct % 64)
  else some (3, block 3 ct % 64)

/-- Within a block of the near wheel no place changes. -/
theorem place_none {e T : Nat} (hT : T < 2 ^ 32) (he : e < 2 ^ 32)
    (hc : carry ((T + 1) % 2 ^ 32) = none) : place e ((T + 1) % 2 ^ 32) = place e T := by
  have hlow : (T + 1) % 2 ^ 32 % 256 ≠ 0 := by
    unfold carry at hc
    split_ifs at hc with h
    exact h
  have hblock : block 0 ((T + 1) % 2 ^ 32) = block 0 T := by
    show (T + 1) % 2 ^ 32 / 256 = T / 256
    omega
  rcases block_cases he hT with hsame | ⟨k, hk, hne, heq⟩
  · rw [place_near hsame, place_near (hsame.trans hblock.symm)]
  · have hk' : ∀ j, block j ((T + 1) % 2 ^ 32) = block j T := fun j =>
      block_eq_of_le (Nat.zero_le j) hblock
    rw [place_far hk hne heq, place_far hk (by rwa [hk']) (by rwa [hk'])]

/-- Above the level into which the time carries nothing changes. -/
theorem block_carry {T i idx : Nat} (hT : T < 2 ^ 32)
    (hc : carry ((T + 1) % 2 ^ 32) = some (i, idx)) :
    i ≤ 3 ∧ idx = block i ((T + 1) % 2 ^ 32) % 64 ∧
      block (i + 1) ((T + 1) % 2 ^ 32) = block (i + 1) T := by
  unfold carry block at hc
  unfold block
  split_ifs at hc <;> obtain ⟨rfl, rfl⟩ := Prod.mk.inj (Option.some.inj hc) <;>
    refine ⟨by omega, rfl, ?_⟩ <;> simp only [Nat.reduceAdd, Nat.reduceMul, Nat.reducePow] at * <;>
    omega

/-- What is ahead is in another block, up to that level. -/
theorem block_ahead {e T i idx : Nat}
    (hc : carry ((T + 1) % 2 ^ 32) = some (i, idx)) (he : Ahead e T) : block i e ≠ block i T := by
  unfold carry block at hc
  unfold Ahead at he
  unfold block
  split_ifs at hc <;> obtain ⟨rfl, rfl⟩ := Prod.mk.inj (Option.some.inj hc) <;>
    simp only [Nat.reduceAdd, Nat.reduceMul, Nat.reducePow] at * <;> omega

/-- So it is in that level, or above it. -/
theorem block_above {e T i idx : Nat} (hT : T < 2 ^ 32)
    (hc : carry ((T + 1) % 2 ^ 32) = some (i, idx)) (he : Ahead e T) :
    ∃ k ≤ 3, i ≤ k ∧ block k e ≠ block k T ∧ block (k + 1) e = block (k + 1) T := by
  have hahead := block_ahead hc he
  rcases block_cases he.1 hT with hsame | ⟨k, hk, hne, heq⟩
  · exact absurd (block_eq_of_le (Nat.zero_le i) hsame) hahead
  · refine ⟨k, hk, ?_, hne, heq⟩
    by_contra hki
    exact hahead (block_eq_of_le (by omega) heq)

/-- The list that is dealt again goes below the level. -/
theorem place_below {e T i idx : Nat} (hT : T < 2 ^ 32)
    (hc : carry ((T + 1) % 2 ^ 32) = some (i, idx)) (he : Ahead e T)
    (hp : place e T = .far i idx) (k j : Nat) (hk : i ≤ k) :
    place e ((T + 1) % 2 ^ 32) ≠ .far k j := by
  obtain ⟨hi, rfl, habove⟩ := block_carry hT hc
  have hsame : block i e = block i ((T + 1) % 2 ^ 32) := by
    obtain ⟨k, hk, -, hne, heq⟩ := block_above hT hc he
    rw [place_far hk hne heq, Place.far.injEq] at hp
    obtain ⟨rfl, hmod⟩ := hp
    rw [← habove, block_succ, block_succ] at heq
    rw [← Nat.div_add_mod (block k e) 64, heq, hmod, Nat.div_add_mod]
  -- now it agrees with the present in that level
  rcases block_cases he.1 (Nat.mod_lt (T + 1) (Nat.two_pow_pos 32)) with hnear | ⟨k', hk', hne, heq⟩
  · rw [place_near hnear]
    exact Place.noConfusion
  · rw [place_far hk' hne heq, ne_eq, Place.far.injEq]
    rintro ⟨rfl, -⟩
    exact hne (block_eq_of_le hk hsame)

/-- No other list is touched. -/
theorem place_keep {e T i idx : Nat} (hT : T < 2 ^ 32)
    (hc : carry ((T + 1) % 2 ^ 32) = some (i, idx)) (he : Ahead e T)
    (hp : place e T ≠ .far i idx) : place e ((T + 1) % 2 ^ 32) = place e T := by
  obtain ⟨hi, rfl, habove⟩ := block_carry hT hc
  obtain ⟨k, hk, hik, hne, heq⟩ := block_above hT hc he
  rw [place_far hk hne heq] at hp ⊢
  have habove' : block (k + 1) ((T + 1) % 2 ^ 32) = block (k + 1) T :=
    block_eq_of_le (by omega) habove
  refine place_far hk ?_ (heq.trans habove'.symm)
  rcases Nat.lt_or_eq_of_le hik with hlt | rfl
  · rwa [block_eq_of_le hlt habove]
  · intro h
    rw [h] at hp
    exact hp rfl

/-! ## Ticks -/

/-- The key by which the lists are dealt. -/
def key (time : Nat) (node : Node E) : Place := place node.expire time

theorem foldl_add_node (T : Timer E) (l : List (Node E)) :
    l.foldl add_node T = { T with lists := l.foldl (put (key T.time)) T.lists } := by
  induction l generalizing T with
  | nil => rfl
  | cons node l ih =>
    rw [List.foldl_cons, ih]
    rfl

theorem timer_shift_eq (T : Timer E) : timer_shift T =
    match carry ((T.time + 1) % 2 ^ 32) with
    | none => { T with time := (T.time + 1) % 2 ^ 32 }
    | some (i, idx) => move_list { T with time := (T.time + 1) % 2 ^ 32 } i idx := by
  rw [timer_shift]
  have hlt : (T.time + 1) % 2 ^ 32 < 2 ^ 32 := Nat.mod_lt _ (Nat.two_pow_pos 32)
  generalize (T.time + 1) % 2 ^ 32 = ct at hlt ⊢
  by_cases h0 : ct = 0
  · subst h0
    rfl
  have hmask : ∀ k, ct &&& (2 ^ k - 1) = ct % 2 ^ k := Nat.and_two_pow_sub_one_eq_mod ct
  have hidx : ∀ k, (ct >>> k) &&& TIME_LEVEL_MASK = ct / 2 ^ k % 64 := by
    intro k
    rw [Nat.shiftRight_eq_div_pow]
    exact Nat.and_two_pow_sub_one_eq_mod _ 6
  have hshift : ∀ k, ct >>> k >>> TIME_LEVEL_SHIFT = ct >>> (k + 6) := fun k =>
    (Nat.shiftRight_add ct k 6).symm
  have hmasks : ∀ k, 2 ^ k <<< TIME_LEVEL_SHIFT = 2 ^ (k + 6) := fun k => by
    rw [Nat.shiftLeft_eq, Nat.pow_add]
  have hnear : TIME_NEAR = 2 ^ 8 := rfl
  simp only [if_neg h0, shiftLoop, hnear, hmasks, hmask, hshift, hidx, carry, block]
  simp only [TIME_NEAR_SHIFT, Nat.reduceAdd, Nat.reduceMul, Nat.reducePow]
  -- each turn of the loop is a branch of `carry`
  by_cases h₁ : ct % 256 = 0
  swap
  · simp [h₁]
  by_cases h₂ : ct / 256 % 64 = 0
  swap
  · simp [h₁, h₂]
  have h₃ : ct % 16384 = 0 := by omega
  by_cases h₄ : ct / 16384 % 64 = 0
  swap
  · simp [h₁, h₂, h₃, h₄]
  have h₅ : ct % 1048576 = 0 := by omega
  by_cases h₆ : ct / 1048576 % 64 = 0
  swap
  · simp [h₁, h₂, h₃, h₄, h₅, h₆]
  have h₇ : ct % 67108864 = 0 := by omega
  have h₈ : ct / 67108864 % 64 ≠ 0 := by omega
  simp [h₁, h₂, h₃, h₄, h₅, h₆, h₇, h₈]

/-- A tick deals one list again, so that all are in the list of their place. -/
theorem timer_shift_dealt {T : Timer E} {l : List (Node E)} (hT : T.time < 2 ^ 32)
    (h : Dealt (key T.time) l T.lists) (hahead : ∀ node ∈ l, Ahead node.expire T.time) :
    (timer_shift T).time = (T.time + 1) % 2 ^ 32 ∧
      Dealt (key ((T.time + 1) % 2 ^ 32)) l (timer_shift T).lists := by
  rw [timer_shift_eq]
  cases hc : carry ((T.time + 1) % 2 ^ 32) with
  | none =>
    refine ⟨rfl, fun p => ?_⟩
    rw [h p]
    refine List.filter_congr fun node hnode => ?_
    rw [key, key, place_none hT (hahead node hnode).1 hc]
  | some r =>
    obtain ⟨i, idx⟩ := r
    dsimp only
    rw [move_list, foldl_add_node]
    refine ⟨rfl, h.redeal (fun node hnode hp => ?_) fun node hnode hp node' hnode' hsame => ?_⟩
    · exact place_keep hT hc (hahead node hnode) hp
    · obtain ⟨k, hk, hik, hne, heq⟩ := block_above hT hc (hahead node' hnode')
      rw [key, place_far hk hne heq] at hsame
      exact place_below hT hc (hahead node hnode) hp k _ hik hsame.symm

/-! ## Runs -/

/-- The node of what is due in a tick. -/
def node (x : Nat × E) : Node E := ⟨x.1 % 2 ^ 32, x.2⟩

/-- What is due up to the tick `n`: tick by tick, in the order in which it was added. -/
def due (added : List (Nat × E)) (n : Nat) : List (Nat × E) :=
  (List.range (n + 1)).flatMap fun k => added.filter (·.1 = k)

def Pc.current : Pc E → List (Node E)
  | .idle => []
  | .dispatching _ current => current

/-- What is due later. -/
def World.pending (w : World E) : List (Nat × E) := w.added.filter (w.ticks < ·.1)

structure Kept (w : World E) : Prop where
  time : w.timer.time = w.ticks % 2 ^ 32
  bound : ∀ x ∈ w.added, x.1 < w.ticks + 2 ^ 31
  lists : Dealt (key w.timer.time) (w.pending.map node) w.timer.lists
  log : w.log ++ w.pc.current.map (fun n => (w.ticks, n.event)) = due w.added w.ticks
  shifted : ∀ current, w.pc ≠ .dispatching false current

variable {w : World E}

theorem kept_new : Kept (World.new : World E) where
  time := rfl
  bound x hx := by cases hx
  lists p := rfl
  log := rfl
  shifted current h := by cases h

theorem due_succ (added : List (Nat × E)) (n : Nat) :
    due added (n + 1) = due added n ++ added.filter (·.1 = n + 1) := by
  rw [due, List.range_succ, List.flatMap_append]
  simp [due]

/-- All that is due, each once. -/
theorem due_perm (added : List (Nat × E)) (n : Nat) :
    (due added n).Perm (added.filter (·.1 ≤ n)) := by
  induction n with
  | zero => simp [due]
  | succ n ih =>
    have hsplit := List.filter_append_perm (·.1 ≤ n) (added.filter (·.1 ≤ n + 1))
    rw [List.filter_filter, List.filter_filter] at hsplit
    rw [due_succ]
    refine (ih.append (.refl _)).trans (.trans (.of_eq ?_) hsplit)
    congr 1
    · refine List.filter_congr fun x _ => ?_
      by_cases h : x.1 ≤ n
      · simp [h, Nat.le_succ_of_le h]
      · simp [h]
    · refine List.filter_congr fun x _ => ?_
      rw [Bool.eq_iff_iff]
      simp only [decide_eq_true_eq, Bool.and_eq_true, Bool.not_eq_true', decide_eq_false_iff_not]
      omega

/-- What is added is due later. -/
theorem due_append {added : List (Nat × E)} {n : Nat} {x : Nat × E} (hx : n < x.1) :
    due (added ++ [x]) n = due added n := by
  refine List.flatMap_congr fun k hk => ?_
  have hne : x.1 ≠ k := by
    have := List.mem_range.mp hk
    omega
  simp [List.filter_append, hne]

theorem Kept.ahead (h : Kept w) : ∀ x ∈ w.pending.map node, Ahead x.expire w.timer.time := by
  intro _ hnode
  obtain ⟨x, hx, rfl⟩ := List.mem_map.mp hnode
  obtain ⟨hadded, hlt⟩ := List.mem_filter.mp hx
  have hbound := h.bound x hadded
  rw [decide_eq_true_eq] at hlt
  rw [h.time, Ahead, node]
  dsimp only
  omega

/-- The list of the present is empty. -/
theorem Kept.near (h : Kept w) : w.timer.lists (.near (w.timer.time &&& TIME_NEAR_MASK)) = [] := by
  have hmask : w.timer.time &&& TIME_NEAR_MASK = w.timer.time % 256 :=
    Nat.and_two_pow_sub_one_eq_mod _ 8
  rw [h.lists, List.filter_eq_nil_iff]
  intro x hx hkey
  rw [decide_eq_true_eq, key, hmask, place_due] at hkey
  have hahead := h.ahead x hx
  rw [Ahead] at hahead
  omega

theorem Kept.timeout (h : Kept w) {event : E} {time : Nat} (hpos : 0 < time)
    (hlt : time < 2 ^ 31) : Kept (w.exec (.timeout event time)) := by
  have hnew : w.ticks < (w.ticks + time, event).1 := Nat.lt_add_of_pos_right hpos
  refine ⟨h.time, fun x hx => ?_, ?_, ?_, h.shifted⟩
  · rcases List.mem_append.mp hx with hx | hx
    · exact h.bound x hx
    · rw [List.mem_singleton.mp hx]
      exact Nat.add_lt_add_left hlt _
  · have hpending : (w.exec (.timeout event time)).pending =
        w.pending ++ [(w.ticks + time, event)] := by
      show (w.added ++ [(w.ticks + time, event)]).filter (w.ticks < ·.1) = _
      rw [List.filter_append, List.filter_cons_of_pos (by simpa using hnew)]
      rfl
    have hexpire : (time + w.timer.time) % 2 ^ 32 = (w.ticks + time) % 2 ^ 32 := by
      rw [h.time]
      omega
    rw [hpending, List.map_append]
    show Dealt _ _ (put (key w.timer.time) w.timer.lists ⟨(time + w.timer.time) % 2 ^ 32, event⟩)
    rw [hexpire]
    exact h.lists.append _
  · show w.log ++ _ = due (w.added ++ [_]) w.ticks
    rw [due_append hnew]
    exact h.log

theorem events_filter (added : List (Nat × E)) (n : Nat) :
    ((added.filter (·.1 = n)).map node).map (fun x => (n, x.event)) = added.filter (·.1 = n) := by
  rw [List.map_map]
  conv_rhs => rw [← List.map_id (added.filter _)]
  refine List.map_congr_left fun x hx => ?_
  rw [← of_decide_eq_true (List.mem_filter.mp hx).2]
  rfl

theorem executeShifted_nil (h : w.timer.lists (.near (w.timer.time &&& TIME_NEAR_MASK)) = []) :
    w.executeShifted = { w with pc := .idle } := by
  simp only [World.executeShifted, h]

theorem executeShifted_cons {x : Node E} {current : List (Node E)}
    (h : w.timer.lists (.near (w.timer.time &&& TIME_NEAR_MASK)) = x :: current) :
    w.executeShifted =
      { w with
        timer := { w.timer with
          lists := update w.timer.lists (.near (w.timer.time &&& TIME_NEAR_MASK)) [] }
        pc := .dispatching true (x :: current) } := by
  simp only [World.executeShifted, h]

/-- The second `timer_execute` takes what is due in the tick. -/
theorem kept_executeShifted {n : Nat} (hticks : w.ticks = n + 1)
    (htime : w.timer.time = w.ticks % 2 ^ 32) (hbound : ∀ x ∈ w.added, x.1 < w.ticks + 2 ^ 31)
    (hlists : Dealt (key w.timer.time) ((w.added.filter (n < ·.1)).map node) w.timer.lists)
    (hlog : w.log = due w.added n) : Kept w.executeShifted := by
  have hmask : w.timer.time &&& TIME_NEAR_MASK = w.timer.time % 256 :=
    Nat.and_two_pow_sub_one_eq_mod _ 8
  have hkey : ∀ x ∈ w.added, n < x.1 →
      (key w.timer.time (node x) = .near (w.timer.time % 256) ↔ x.1 = n + 1) := by
    intro x hx hlt
    have hb := hbound x hx
    rw [key, place_due, node, htime]
    dsimp only
    omega
  -- what is due in this tick, and what is due later
  have hnow : (((w.added.filter (n < ·.1)).map node).filter
      (key w.timer.time · = .near (w.timer.time % 256))) =
      (w.added.filter (·.1 = n + 1)).map node := by
    rw [List.filter_map, List.filter_filter]
    congr 1
    refine List.filter_congr fun x hx => ?_
    by_cases hlt : n < x.1
    · simp [hlt, hkey x hx hlt]
    · have hne : x.1 ≠ n + 1 := by omega
      simp [hlt, hne]
  have hlater : (((w.added.filter (n < ·.1)).map node).filter
      (key w.timer.time · ≠ .near (w.timer.time % 256))) =
      (w.added.filter (n + 1 < ·.1)).map node := by
    rw [List.filter_map, List.filter_filter]
    congr 1
    refine List.filter_congr fun x hx => ?_
    by_cases hlt : n < x.1
    · have hiff : n + 1 < x.1 ↔ x.1 ≠ n + 1 := by omega
      simp [hlt, hkey x hx hlt, hiff]
    · have hle : ¬ n + 1 < x.1 := by omega
      simp [hlt, hle]
  have hlist := hlists (.near (w.timer.time % 256))
  have htake := hlists.take (.near (w.timer.time % 256))
  have hlog' : w.log ++ w.added.filter (·.1 = n + 1) = due w.added w.ticks := by
    rw [hticks, due_succ, hlog]
  rw [← hticks] at hlater hnow hlog'
  cases hl : w.timer.lists (.near (w.timer.time &&& TIME_NEAR_MASK)) with
  | nil =>
    rw [executeShifted_nil hl]
    refine ⟨htime, hbound, ?_, ?_, fun current h => by cases h⟩
    · rw [← hmask, ← hl, Function.update_eq_self, hmask, hlater] at htake
      exact htake
    · rw [hmask, hlist, hnow, List.map_eq_nil_iff] at hl
      rw [← hlog', hl]
      rfl
  | cons x current =>
    rw [executeShifted_cons hl, hmask]
    refine ⟨htime, hbound, ?_, ?_, fun current h => by cases h⟩
    · rw [hlater] at htake
      exact htake
    · rw [hmask, hlist, hnow] at hl
      rw [← hlog', ← events_filter w.added w.ticks, hl]
      rfl

theorem Kept.update (h : Kept w) : Kept (w.exec .update) := by
  have hfirst : w.pc.current = [] → Kept w.executeFirst := by
    intro hcurrent
    rw [World.executeFirst]
    simp only [h.near]
    obtain ⟨htime, hdealt⟩ := timer_shift_dealt (by rw [h.time]; omega) h.lists h.ahead
    have hlog := h.log
    rw [hcurrent, List.map_nil, List.append_nil] at hlog
    refine kept_executeShifted (n := w.ticks) rfl ?_ ?_ ?_ hlog
    · show (timer_shift w.timer).time = (w.ticks + 1) % 2 ^ 32
      rw [htime, h.time]
      omega
    · intro x hx
      have := h.bound x hx
      show x.1 < w.ticks + 1 + 2 ^ 31
      omega
    · show Dealt (key (timer_shift w.timer).time) _ (timer_shift w.timer).lists
      rw [htime]
      exact hdealt
  cases hpc : w.pc with
  | idle =>
    rw [World.exec, hpc]
    exact hfirst (by rw [hpc]; rfl)
  | dispatching shifted current =>
    cases current with
    | nil =>
      cases shifted with
      | false => exact absurd hpc (h.shifted [])
      | true =>
        rw [World.exec, hpc]
        have hlog := h.log
        rw [hpc] at hlog
        have hnear := h.near
        dsimp only
        rw [World.executeShifted]
        simp only [hnear]
        exact ⟨h.time, h.bound, h.lists, hlog, fun current h => by cases h⟩
    | cons x current =>
      rw [World.exec, hpc]
      have hlog := h.log
      rw [hpc] at hlog
      refine ⟨h.time, h.bound, h.lists, ?_, fun current' e => ?_⟩
      · rw [← hlog]
        simp [Pc.current]
      · cases e
        exact h.shifted _ hpc

theorem kept_of_reach (hw : Machine.Reach World.exec World.Legal World.new w) : Kept w := by
  refine hw.invariant kept_new fun w op h hop => ?_
  cases op with
  | timeout event time => exact h.timeout hop.1 hop.2
  | update => exact h.update

/-- The timer thread sends what it has taken, and is done with the tick. -/
theorem Kept.ends (h : Kept w) :
    ∃ n, ((World.exec · .update)^[n] w).pc = .idle ∧
      ((World.exec · .update)^[n] w).ticks = w.ticks := by
  have hrun : ∀ (current : List (Node E)) (w : World E), Kept w →
      w.pc = .dispatching true current →
      ((World.exec · .update)^[current.length + 1] w).pc = .idle ∧
        ((World.exec · .update)^[current.length + 1] w).ticks = w.ticks := by
    intro current
    induction current with
    | nil =>
      intro w h hpc
      have hstep : w.exec .update = { w with pc := .idle } := by
        rw [World.exec, hpc]
        exact executeShifted_nil h.near
      simp only [List.length_nil, Nat.zero_add, Function.iterate_one, hstep, and_self]
    | cons x current ih =>
      intro w h hpc
      have hstep : w.exec .update =
          { w with pc := .dispatching true current, log := w.log ++ [(w.ticks, x.event)] } := by
        rw [World.exec, hpc]
      rw [List.length_cons, Function.iterate_succ_apply]
      obtain ⟨hidle, hticks⟩ := ih (w.exec .update) h.update (by rw [hstep])
      exact ⟨hidle, hticks.trans (by rw [hstep])⟩
  cases hpc : w.pc with
  | idle => exact ⟨0, hpc, rfl⟩
  | dispatching shifted current =>
    cases shifted with
    | false => exact absurd hpc (h.shifted current)
    | true => exact ⟨_, hrun current w h hpc⟩

theorem Kept.tick (h : Kept w) (hpc : w.pc = .idle) : (w.exec .update).ticks = w.ticks + 1 := by
  rw [World.exec, hpc]
  dsimp only
  rw [World.executeFirst]
  simp only [h.near, World.executeShifted]
  split <;> rfl

/-- In every run, with timers added at any moment and a time that wraps, what has been sent and what
is being sent is what was due, each timer in the tick in which it is due and in the order of adding;
the thread comes to the end of the tick, and then goes on to the next. -/
theorem sent_when_due (hw : Machine.Reach World.exec World.Legal World.new w) :
    w.log ++ w.pc.current.map (fun n => (w.ticks, n.event)) = due w.added w.ticks ∧
      (∃ n, ((World.exec · .update)^[n] w).pc = .idle ∧
        ((World.exec · .update)^[n] w).ticks = w.ticks) ∧
      (w.pc = .idle → w.log.Perm (w.added.filter (·.1 ≤ w.ticks)) ∧
        (w.exec .update).ticks = w.ticks + 1) := by
  have h := kept_of_reach hw
  refine ⟨h.log, h.ends, fun hpc => ⟨?_, h.tick hpc⟩⟩
  have hlog := h.log
  rw [hpc, Pc.current, List.map_nil, List.append_nil] at hlog
  rw [hlog]
  exact due_perm w.added w.ticks

/-- Two timers for the same tick, of which the later one is nearer. -/
def sample : World Nat :=
  ((World.new.exec (.timeout 1 2)).exec .update).exec (.timeout 2 1)

theorem sent_when_due_sample :
    sample.log ++ sample.pc.current.map (fun n => (sample.ticks, n.event)) =
      due sample.added sample.ticks := by
  have hfirst : World.new.Legal (.timeout 1 2) := ⟨by decide, by decide⟩
  have hsecond : ((World.new.exec (.timeout 1 2)).exec .update).Legal (.timeout 2 1) :=
    ⟨by decide, by decide⟩
  exact (sent_when_due (.step _ (.step Op.update (.step _ .init hfirst) trivial) hsecond)).1

end SkynetHotfix.Skynet.Wheel
