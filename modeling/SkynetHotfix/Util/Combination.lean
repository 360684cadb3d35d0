import SkynetHotfix.Lib.Choose
import SkynetHotfix.Lib.Fuel
import SkynetHotfix.Lua.Seq
import Mathlib.Data.List.Sort

/-!
# Combinations

`getCombination` of `common/base/util.lua`, where `bits` is `meta`, with a
set bit for `1`.
Its loops read and write within the vector: `record` selects, `pass` moves the
last of the set bits to the front of its part (`bubble`), and a turn makes the
next vector (`turn_next`). So the turns go through the vectors in order, up to
the one whose first bits are clear (`getCombination_lists`).
-/

namespace SkynetHotfix.Util

open List (replicate)
open Lua

variable {α : Type}

/-- `meta` and `result`. -/
structure Combining (α : Type) where
  bits : List Bool
  result : List (List α)

/-- `a[i]` of an item that is there. -/
def index (a : List α) (i : Nat) : Fuel.Result Unit α :=
  match Seq.get a i with
  | none => .error (some ())
  | some x => .ok x

/-- `a[i], a[j] = a[j], a[i]` of items that are there. -/
def exchange (a : List α) (i j : Nat) : Fuel.Result Unit (List α) :=
  match Seq.swap a i j with
  | none => .error (some ())
  | some b => .ok b

/-- The loop that fills `meta`. -/
def initMeta (len n : Nat) : List Bool :=
  (List.range' 1 len).foldl (fun bits i => bits ++ [decide (i ≤ n)]) []

/-- The loop that fills `tmp`. -/
def record (tb : List α) (bits : List Bool) : Fuel.Result Unit (List α) :=
  (List.range' 1 tb.length).foldlM (fun tmp i => do
    let b ← index bits i
    if b then do
      let x ← index tb i
      .ok (tmp ++ [x])
    else .ok tmp) []

/-- The loop over the indices `is` that counts in `zero_count`. -/
def zeroCount (bits : List Bool) : List Nat → Nat → Fuel.Result Unit Nat
  | [], zero_count => .ok zero_count
  | i :: is, zero_count => do
    let b ← index bits i
    if b then .ok zero_count else zeroCount bits is (zero_count + 1)

/-- The loop over the indices `js` that exchanges a `10` and sets `idx`. Without one `idx - 1`
raises. -/
def exchangeFirst (bits : List Bool) : List Nat → Fuel.Result Unit (List Bool × Nat)
  | [] => .error (some ())
  | j :: js => do
    let b ← index bits j
    if b then do
      let c ← index bits (j + 1)
      if c then exchangeFirst bits js
      else do
        let bits ← exchange bits j (j + 1)
        .ok (bits, j)
    else exchangeFirst bits js

/-- `for i=k, 2, -1` -/
def pass (k : Nat) (bits : List Bool) : Fuel.Result Unit (List Bool) :=
  (List.range' 2 (k - 1)).reverse.foldlM (fun bits i => do
    let b ← index bits i
    if b then exchange bits i (i - 1) else .ok bits) bits

/-- `while count <= k` -/
def collect (k : Nat) (bits : List Bool) : Fuel.Result Unit (List Bool) :=
  (List.range (k + 1)).foldlM (fun bits _ => pass k bits) bits

/-- `while true` -/
def turns (tb : List α) (n fuel : Nat) (s : Combining α) : Fuel.Result Unit (Combining α) :=
  let len := tb.length
  Fuel.run (fun rec (_ : Unit) s => do
    let zero_count ← zeroCount s.bits (List.range' 1 (len - n)) 0
    if zero_count = len - n then .ok s
    else do
      let (bits, idx) ← exchangeFirst s.bits (List.range' 1 (len - 1))
      let bits ← collect (idx - 1) bits
      let tmp ← record tb bits
      rec () { bits := bits, result := s.result ++ [tmp] }) fuel () s

/-- `getCombination(tb,n)` -/
def getCombination (tb : List α) (n fuel : Nat) : Fuel.Result Unit (List (List α)) :=
  if n > tb.length then .ok []
  else do
    let bits := initMeta tb.length n
    let tmp ← record tb bits
    let s ← turns tb n fuel { bits := bits, result := [tmp] }
    .ok s.result

theorem index_append (pre : List α) (x : α) (r : List α) {i : Nat} (h : i = pre.length + 1) :
    index (pre ++ x :: r) i = .ok x := by
  subst h
  simp [index, Seq.get]

theorem exchange_append (pre : List α) (x y : α) (r : List α) {i j : Nat}
    (hi : i = pre.length + 1) (hj : j = pre.length + 2) :
    exchange (pre ++ x :: y :: r) i j = .ok (pre ++ y :: x :: r) ∧
      exchange (pre ++ x :: y :: r) j i = .ok (pre ++ y :: x :: r) := by
  subst hi hj
  have hx : Seq.get (pre ++ x :: y :: r) (pre.length + 1) = some x := by simp [Seq.get]
  have hy : Seq.get (pre ++ x :: y :: r) (pre.length + 2) = some y := by simp [Seq.get]
  constructor
  · rw [exchange, Seq.swap_eq_some.mpr ⟨x, y, hx, hy, rfl⟩]
    simp [Seq.set]
  · rw [exchange, Seq.swap_eq_some.mpr ⟨y, x, hy, hx, rfl⟩]
    simp [Seq.set]

/-! ## Selections -/

theorem initMeta_eq (len n : Nat) (h : n ≤ len) : initMeta len n = Choose.first len n := by
  have hsnoc : ∀ (l : List Nat) (acc : List Bool),
      l.foldl (fun bits i => bits ++ [decide (i ≤ n)]) acc =
        acc ++ l.map fun i => decide (i ≤ n) := by
    intro l
    induction l with
    | nil => simp
    | cons i l ih => simp [ih]
  obtain ⟨c, rfl⟩ := Nat.exists_eq_add_of_le h
  rw [initMeta, hsnoc, List.nil_append, ← List.range'_append_1, List.map_append, Choose.first,
    Nat.add_sub_cancel_left]
  congr 1
  · refine List.eq_replicate_iff.mpr ⟨by simp, fun b hb => ?_⟩
    obtain ⟨i, hi, rfl⟩ := List.mem_map.mp hb
    have hi := List.mem_range'_1.mp hi
    exact decide_eq_true (by omega)
  · refine List.eq_replicate_iff.mpr ⟨by simp, fun b hb => ?_⟩
    obtain ⟨i, hi, rfl⟩ := List.mem_map.mp hb
    have hi := List.mem_range'_1.mp hi
    exact decide_eq_false (by omega)

theorem record_eq {tb : List α} {bits : List Bool} (h : bits.length = tb.length) :
    record tb bits = .ok (Choose.select bits tb) := by
  have key : ∀ (l : List α) (v : List Bool) (l₀ : List α) (v₀ : List Bool) (tmp : List α),
      v.length = l.length → v₀.length = l₀.length →
      (List.range' (l₀.length + 1) l.length).foldlM (fun tmp i => do
        let b ← index (v₀ ++ v) i
        if b then do
          let x ← index (l₀ ++ l) i
          .ok (tmp ++ [x])
        else .ok tmp) tmp = (.ok (tmp ++ Choose.select v l) : Fuel.Result Unit (List α)) := by
    intro l
    induction l with
    | nil =>
      intro v l₀ v₀ tmp hv _
      rw [List.length_eq_zero_iff.mp hv]
      simp [Choose.select, pure, Except.pure]
    | cons x l ih =>
      intro v l₀ v₀ tmp hv hv₀
      cases v with
      | nil => cases hv
      | cons b v =>
        have hrest : ∀ tmp, _ := fun tmp => ih v (l₀ ++ [x]) (v₀ ++ [b]) tmp (Nat.succ.inj hv)
          (by simp [hv₀])
        simp only [List.append_assoc, List.singleton_append, List.length_append,
          List.length_singleton] at hrest
        rw [List.length_cons, List.range'_succ, List.foldlM_cons,
          index_append v₀ b v (by rw [hv₀])]
        cases b with
        | false => exact hrest tmp
        | true =>
          have hx := index_append l₀ x l rfl
          simpa [hx, Choose.select, Fuel.ok_bind] using hrest (tmp ++ [x])
  simpa [record] using key tb bits [] [] [] h rfl

/-! ## A turn -/

/-- The clear bits in front are counted, up to the end of the loop. -/
theorem zeroCount_clear (bits : List Bool) (c : Nat) : ∀ (pre w : List Bool) (t d : Nat), t ≤ d →
    bits = pre ++ (replicate d false ++ w) →
    zeroCount bits (List.range' (pre.length + 1) t) c = .ok (c + t) := by
  intro pre w t
  induction t generalizing pre c with
  | zero => exact fun _ _ _ => rfl
  | succ t ih =>
    intro d htd hbits
    obtain ⟨d, rfl⟩ : ∃ e, d = e + 1 := ⟨d - 1, by omega⟩
    rw [List.replicate_succ, List.cons_append] at hbits
    rw [List.range'_succ, zeroCount, hbits, index_append pre false _ rfl, ← hbits]
    have h := ih (c + 1) (pre ++ [false]) d (by omega) (by simp [hbits])
    rw [List.length_append, List.length_singleton] at h
    rw [Nat.add_comm t, ← Nat.add_assoc]
    exact h

/-- A set bit ends the count. -/
theorem zeroCount_set (bits : List Bool) (c : Nat) : ∀ (pre w : List Bool) (t d : Nat), d < t →
    bits = pre ++ (replicate d false ++ true :: w) →
    zeroCount bits (List.range' (pre.length + 1) t) c = .ok (c + d) := by
  intro pre w t d
  induction d generalizing pre c t with
  | zero =>
    intro ht hbits
    obtain ⟨t, rfl⟩ : ∃ e, t = e + 1 := ⟨t - 1, by omega⟩
    rw [List.range'_succ, zeroCount, hbits, List.replicate_zero, List.nil_append,
      index_append pre true _ rfl]
    rfl
  | succ d ih =>
    intro ht hbits
    obtain ⟨t, rfl⟩ : ∃ e, t = e + 1 := ⟨t - 1, by omega⟩
    rw [List.replicate_succ, List.cons_append] at hbits
    rw [List.range'_succ, zeroCount, hbits, index_append pre false _ rfl, ← hbits]
    have h := ih (c + 1) (pre ++ [false]) t (by omega) (by simp [hbits])
    rw [List.length_append, List.length_singleton] at h
    rw [Nat.add_comm d, ← Nat.add_assoc]
    exact h

/-- The `10` behind clear bits and set bits is found and exchanged. -/
theorem exchangeFirst_eq (bits : List Bool) : ∀ (a b t : Nat) (pre r : List Bool), a + b < t →
    bits = pre ++ (replicate a false ++ (replicate (b + 1) true ++ false :: r)) →
    exchangeFirst bits (List.range' (pre.length + 1) t) =
      .ok (pre ++ (replicate a false ++ (replicate b true ++ false :: true :: r)),
        pre.length + a + b + 1) := by
  intro a
  induction a with
  | zero =>
    intro b
    induction b with
    | zero =>
      intro t pre r ht hbits
      obtain ⟨t, rfl⟩ : ∃ e, t = e + 1 := ⟨t - 1, by omega⟩
      have hbits : bits = pre ++ true :: false :: r := by simpa using hbits
      have hx := index_append pre true (false :: r) rfl
      have hy := index_append (pre ++ [true]) false r (i := pre.length + 1 + 1) (by simp)
      rw [List.append_assoc, List.singleton_append] at hy
      rw [List.range'_succ, exchangeFirst, hbits, hx]
      simp [hy, (exchange_append pre true false r rfl rfl).1, Fuel.ok_bind]
    | succ b ih =>
      intro t pre r ht hbits
      obtain ⟨t, rfl⟩ : ∃ e, t = e + 1 := ⟨t - 1, by omega⟩
      rw [List.replicate_zero, List.nil_append, List.replicate_succ, List.cons_append] at hbits
      have hx := index_append pre true (replicate (b + 1) true ++ false :: r) rfl
      have hy := index_append (pre ++ [true]) true (replicate b true ++ false :: r)
        (i := pre.length + 1 + 1) (by simp)
      rw [List.append_assoc, List.singleton_append, ← List.cons_append, ← List.replicate_succ] at hy
      rw [← hbits] at hx hy
      rw [List.range'_succ, exchangeFirst, hx]
      have h := ih t (pre ++ [true]) r (by omega) (by simp [hbits])
      rw [List.length_append, List.length_singleton] at h
      simp [hy, h, List.replicate_succ, Fuel.ok_bind]
      omega
  | succ a ih =>
    intro b t pre r ht hbits
    obtain ⟨t, rfl⟩ : ∃ e, t = e + 1 := ⟨t - 1, by omega⟩
    rw [List.replicate_succ, List.cons_append] at hbits
    have hx := index_append pre false
      (replicate a false ++ (replicate (b + 1) true ++ false :: r)) rfl
    rw [← hbits] at hx
    rw [List.range'_succ, exchangeFirst, hx]
    have h := ih b t (pre ++ [false]) r (by omega) (by simp [hbits])
    rw [List.length_append, List.length_singleton] at h
    simp [h, List.replicate_succ, Fuel.ok_bind]
    omega

/-- What a pass makes of its part: its last set bit behind a clear one moves to the front. -/
def bubble : List Bool → List Bool
  | [] => []
  | x :: p => match bubble p with
    | true :: q => true :: x :: q
    | q => x :: q

theorem length_bubble (p : List Bool) : (bubble p).length = p.length := by
  induction p with
  | nil => rfl
  | cons x p ih =>
    rw [bubble]
    split
    · rename_i q h
      rw [h] at ih
      simpa using ih
    · simpa using ih

theorem pass_eq (p r : List Bool) : pass p.length (p ++ r) = .ok (bubble p ++ r) := by
  have key : ∀ (p pre : List Bool), (List.range' (pre.length + 2) (p.length - 1)).reverse.foldlM
      (fun bits i => do
        let b ← index bits i
        if b then exchange bits i (i - 1) else .ok bits) (pre ++ (p ++ r)) =
      (.ok (pre ++ (bubble p ++ r)) : Fuel.Result Unit _) := by
    intro p
    induction p with
    | nil => exact fun _ => rfl
    | cons x p ih =>
      intro pre
      cases p with
      | nil => rfl
      | cons y p =>
        have h := ih (pre ++ [x])
        simp only [List.length_append, List.length_singleton, List.append_assoc,
          List.singleton_append] at h
        have hlen : (x :: y :: p).length - 1 = ((y :: p).length - 1) + 1 := rfl
        rw [hlen, List.range'_succ, List.reverse_cons, List.foldlM_append]
        rw [show pre.length + 2 + 1 = pre.length + 1 + 2 from rfl]
        refine Fuel.bind_eq_ok.mpr ⟨_, h, ?_⟩
        have hb := length_bubble (y :: p)
        cases hq : bubble (y :: p) with
        | nil =>
          rw [hq] at hb
          cases hb
        | cons z q =>
          have hz := index_append (pre ++ [x]) z (q ++ r) (i := pre.length + 2) (by simp)
          rw [List.append_assoc, List.singleton_append] at hz
          cases z with
          | false =>
            have hx : bubble (x :: y :: p) = x :: false :: q := by rw [bubble, hq]
            simp [hx, hz, Fuel.ok_bind, pure, Except.pure]
          | true =>
            have hx : bubble (x :: y :: p) = true :: x :: q := by rw [bubble, hq]
            have he := (exchange_append pre x true (q ++ r) rfl rfl).2
            simp [hx, hz, he, Fuel.ok_bind, pure, Except.pure]
  exact key p []

theorem bubble_set (p : List Bool) : bubble (true :: p) = true :: bubble p := by
  rw [bubble]
  split
  · rename_i q h
    rw [h]
  · rfl

theorem bubble_clear (a : Nat) : bubble (replicate a false) = replicate a false := by
  induction a with
  | zero => rfl
  | succ a ih =>
    rw [List.replicate_succ, bubble, ih]
    cases a <;> rfl

theorem bubble_clear_set (a d : Nat) :
    bubble (replicate a false ++ replicate (d + 1) true) =
      true :: (replicate a false ++ replicate d true) := by
  induction a with
  | zero =>
    induction d with
    | zero => rfl
    | succ d ih => simpa [List.replicate_succ, bubble_set] using ih
  | succ a ih => rw [List.replicate_succ, List.cons_append, bubble, ih]; rfl

/-- The passes pack the set bits. -/
theorem collect_eq (a b : Nat) (r : List Bool) :
    collect (a + b) (replicate a false ++ (replicate b true ++ r)) =
      .ok (replicate b true ++ (replicate a false ++ r)) := by
  have hset : ∀ (c : Nat) (p : List Bool),
      bubble (replicate c true ++ p) = replicate c true ++ bubble p := by
    intro c p
    induction c with
    | zero => rfl
    | succ c ih => rw [List.replicate_succ, List.cons_append, bubble_set, ih, List.cons_append]
  have key : ∀ (l : List Nat) (c d : Nat), d ≤ l.length → c + a + d = a + b →
      l.foldlM (fun bits _ => pass (a + b) bits)
        (replicate c true ++ (replicate a false ++ replicate d true) ++ r) =
      (.ok (replicate (c + d) true ++ replicate a false ++ r) : Fuel.Result Unit _) := by
    intro l
    induction l with
    | nil =>
      intro c d hd _
      cases Nat.le_zero.mp hd
      simp [pure, Except.pure]
    | cons i l ih =>
      intro c d hd hlen
      have hp := pass_eq (replicate c true ++ (replicate a false ++ replicate d true)) r
      rw [List.length_append, List.length_append, List.length_replicate, List.length_replicate,
        List.length_replicate, ← Nat.add_assoc, hlen, hset] at hp
      rw [List.foldlM_cons, hp]
      cases d with
      | zero =>
        have h := ih c 0 (Nat.zero_le _) hlen
        simpa [bubble_clear, Fuel.ok_bind] using h
      | succ d =>
        have h := ih (c + 1) d (Nat.le_of_succ_le_succ hd) (by omega)
        rw [bubble_clear_set]
        rw [List.replicate_succ', List.append_assoc, List.append_assoc, List.singleton_append] at h
        rw [List.append_assoc, show c + (d + 1) = c + 1 + d by omega]
        exact h
  have h := key (List.range (a + b + 1)) 0 b (by simp; omega) (by omega)
  simpa [collect] using h

/-- What a turn does before it records, at a vector that has a next one. -/
theorem turn_next {u v : List Bool} {m n : Nat} (h : Choose.Next u v) (hm : u.length = m)
    (hn : u.count true = n) : ∃ zero_count idx bits,
      zeroCount u (List.range' 1 (m - n)) 0 = .ok zero_count ∧ zero_count ≠ m - n ∧
      exchangeFirst u (List.range' 1 (m - 1)) = .ok (bits, idx) ∧
      collect (idx - 1) bits = .ok v := by
  obtain ⟨a, b, r, rfl, rfl⟩ := h
  have hr : r.count true ≤ r.length := List.count_le_length
  simp only [List.length_append, List.length_replicate, List.length_cons] at hm
  simp only [List.count_append, List.count_replicate, List.count_cons] at hn
  simp at hn
  refine ⟨a, a + b + 1, replicate a false ++ (replicate b true ++ false :: true :: r), ?_,
    by omega, ?_, ?_⟩
  · have h := zeroCount_set (replicate a false ++ (replicate (b + 1) true ++ false :: r)) 0 []
      (replicate b true ++ false :: r) (m - n) a (by omega) (by simp [List.replicate_succ])
    simpa using h
  · have h := exchangeFirst_eq (replicate a false ++ (replicate (b + 1) true ++ false :: r)) a b
      (m - 1) [] r (by omega) (by simp)
    simpa using h
  · have h := collect_eq a b (false :: true :: r)
    rw [Nat.add_sub_cancel, h, List.replicate_succ', List.append_assoc]
    rfl

/-- The turns record the vectors of a chain up to the last. -/
theorem turns_eq {tb : List α} {n : Nat} (l : List (List Bool)) : ∀ (fuel : Nat) (s : Combining α),
    l.length < fuel → (s.bits :: l).IsChain Choose.Next →
    (s.bits :: l).getLast? = some (Choose.last tb.length n) →
    (∀ v ∈ s.bits :: l, v.length = tb.length ∧ v.count true = n) →
    ∃ s', turns tb n fuel s = .ok s' ∧ s'.result = s.result ++ l.map (Choose.select · tb) := by
  induction l with
  | nil =>
    intro fuel s hf _ hlast _
    obtain ⟨fuel, rfl⟩ := Nat.exists_eq_succ_of_ne_zero (Nat.pos_iff_ne_zero.mp hf)
    have hlast : s.bits = Choose.last tb.length n := by simpa using hlast
    have hz := zeroCount_clear s.bits 0 [] (replicate n true) (tb.length - n) _ (Nat.le_refl _)
      (by rw [hlast]; rfl)
    refine ⟨s, Fuel.bind_eq_ok.mpr ⟨_, hz, ?_⟩, by simp⟩
    rw [Nat.zero_add, if_pos rfl]
  | cons v l ih =>
    intro fuel s hf hchain hlast hmem
    have hf' : fuel ≠ 0 := by omega
    obtain ⟨fuel, rfl⟩ := Nat.exists_eq_succ_of_ne_zero hf'
    obtain ⟨hnext, hchain⟩ := List.isChain_cons_cons.mp hchain
    obtain ⟨hm, hn⟩ := hmem _ List.mem_cons_self
    obtain ⟨zero_count, idx, bits, hz, hne, he, hc⟩ := turn_next hnext hm hn
    have hv := (hmem v (List.mem_cons_of_mem _ List.mem_cons_self)).1
    obtain ⟨s', hu, hs'⟩ := ih fuel
      { bits := v, result := s.result ++ [Choose.select v tb] } (Nat.lt_of_succ_lt_succ hf) hchain
      (by rwa [List.getLast?_cons_cons] at hlast)
      (fun w hw => hmem w (List.mem_cons_of_mem _ hw))
    refine ⟨s', Fuel.bind_eq_ok.mpr ⟨_, hz, ?_⟩, by simpa using hs'⟩
    rw [if_neg hne]
    exact Fuel.bind_eq_ok.mpr ⟨_, he, Fuel.bind_eq_ok.mpr ⟨v, hc,
      Fuel.bind_eq_ok.mpr ⟨_, record_eq hv, hu⟩⟩⟩

theorem getCombination_eq {tb : List α} {n : Nat} (hn : n ≤ tb.length) :
    ∃ F, ∀ fuel ≥ F, getCombination tb n fuel =
      .ok ((Choose.vectors tb.length n).map (Choose.select · tb)) := by
  obtain ⟨l, hl⟩ : ∃ l, Choose.vectors tb.length n = Choose.first tb.length n :: l := by
    have h := Choose.head_vectors hn
    rw [List.head?_eq_some_iff] at h
    exact h
  have hmem : ∀ v ∈ Choose.first tb.length n :: l, v.length = tb.length ∧ v.count true = n :=
    fun v hv => Choose.mem_vectors.mp (hl ▸ hv)
  refine ⟨l.length + 1, fun fuel hf => ?_⟩
  obtain ⟨s', hu, hs'⟩ := turns_eq l fuel
    { bits := initMeta tb.length n, result := [Choose.select (Choose.first tb.length n) tb] } hf
    (by rw [initMeta_eq _ _ hn, ← hl]; exact Choose.isChain_vectors)
    (by rw [initMeta_eq _ _ hn, ← hl]; exact Choose.getLast_vectors hn)
    (by rw [initMeta_eq _ _ hn]; exact hmem)
  rw [getCombination, if_neg (Nat.not_lt.mpr hn), hl]
  refine Fuel.bind_eq_ok.mpr ⟨_, record_eq ?_, Fuel.bind_eq_ok.mpr ⟨s', ?_, ?_⟩⟩
  · rw [initMeta_eq _ _ hn]
    exact (hmem _ List.mem_cons_self).1
  · rw [← hu, initMeta_eq _ _ hn]
  · rw [hs']
    rfl

/-- An increasing list of positions is a sublist of them all. -/
theorem sublist_finRange {m : Nat} {p : List (Fin m)} :
    p.Sublist (List.finRange m) ↔ p.Pairwise (· < ·) := by
  have hp := List.pairwise_lt_finRange m
  constructor
  · exact fun h => hp.sublist h
  · intro h
    refine List.sublist_of_subperm_of_pairwise (List.Nodup.subperm ?_ ?_) h hp
    · exact h.imp fun hlt => ne_of_lt hlt
    · exact fun i _ => List.mem_finRange i

/-- `getCombination` lists each choice of `n` positions once, as the items there in order. -/
theorem getCombination_lists (tb : List α) (n : Nat) (hn : n ≤ tb.length) :
    ∃ F, ∀ fuel ≥ F, ∃ S : List (List (Fin tb.length)),
      getCombination tb n fuel = .ok (S.map (List.map tb.get)) ∧ S.Nodup ∧
      S.length = tb.length.choose n ∧ ∀ p, p ∈ S ↔ p.Pairwise (· < ·) ∧ p.length = n := by
  obtain ⟨F, h⟩ := getCombination_eq hn
  refine ⟨F, fun fuel hf => ?_⟩
  have hp := Choose.select_perm n (List.nodup_finRange tb.length)
  rw [List.length_finRange] at hp
  refine ⟨(Choose.vectors tb.length n).map (Choose.select · (List.finRange _)), ?_,
    hp.nodup_iff.mpr (List.nodup_sublistsLen n (List.nodup_finRange _)), ?_, fun p => ?_⟩
  · rw [h fuel hf, List.map_map]
    congr 1
    refine List.map_congr_left fun v _ => ?_
    rw [Function.comp_apply, ← Choose.select_map, List.map_get_finRange]
  · rw [List.length_map, Choose.length_vectors]
  · rw [hp.mem_iff, List.mem_sublistsLen, sublist_finRange]

/-- Two of four. -/
theorem getCombination_lists_two_of_four :
    2 ≤ 4 ∧ ∃ F, ∀ fuel ≥ F, ∃ S : List (List (Fin 4)),
      getCombination ["a", "b", "c", "d"] 2 fuel =
        .ok (S.map (List.map ["a", "b", "c", "d"].get)) ∧ S.length = 6 := by
  obtain ⟨F, h⟩ := getCombination_lists ["a", "b", "c", "d"] 2 (by decide)
  refine ⟨by decide, F, fun fuel hf => ?_⟩
  obtain ⟨S, hS, -, hlen, -⟩ := h fuel hf
  exact ⟨S, hS, hlen⟩

end SkynetHotfix.Util
