import Mathlib.Algebra.CharP.Basic
import Mathlib.Data.BitVec
import Mathlib.Logic.Function.Basic
import Mathlib.Tactic.Abel

/-!
# The two-ended queue

`common/algorithm/QQueue.lua`. The nodes sit in the table `list` from
`first - 1`, the front, down to `last + 1`, the back, and `first` and `last` are fields of the same
table. The queue is `Held` at a list of its nodes, every operation keeps that
(`exec_held`), and so it answers like the list (`run_answers`).

The indices are the elements of a ring: integers, or the machine's. `Fits` is what wrapping asks
for: a queue whose indices wrap at `2 ^ 64` answers like the list as long as it
holds fewer nodes than that (`run_answers_wrap`).
-/

namespace SkynetHotfix.Algorithm

open Function (update)

variable {ι α : Type} {c n : Nat} {d : List α} {x : α}

/-- The keys of `list`. -/
inductive Key (ι : Type)
  | name (s : String)
  | index (i : ι)
deriving DecidableEq

/-- The values of `list`, other than `nil`. -/
inductive Field (ι α : Type)
  | num (i : ι)
  | node (x : α)
deriving DecidableEq

/-- The object, with its one field. -/
structure QQueue (ι α : Type) where
  list : Key ι → Option (Field ι α)

/-- A call of a method. -/
inductive Op (α : Type)
  | pushFront (node : α)
  | pushBack (node : α)
  | popFront
  | popBack

namespace QQueue

variable [Ring ι] [DecidableEq ι] {q : QQueue ι α}

/-- `QQueue.new()`, its `ctor` -/
def new : QQueue ι α where
  list
    | .name "first" => some (.num 0)
    | .name "last" => some (.num (-1))
    | _ => none

/-- A field that is a number; `none` where arithmetic on it raises. -/
def num (q : QQueue ι α) (name : String) : Option ι :=
  match q.list (.name name) with
  | some (.num i) => some i
  | _ => none

/-- `self.list[k] = v` -/
def set (q : QQueue ι α) (k : Key ι) (v : Option (Field ι α)) : QQueue ι α :=
  ⟨update q.list k v⟩

/-- `QQueue:pushFront` -/
def pushFront (q : QQueue ι α) (node : α) : Option (QQueue ι α) := do
  let first ← q.num "first"
  let q := q.set (.index first) (some (.node node))
  some (q.set (.name "first") (some (.num (first + 1))))

/-- `QQueue:pushBack` -/
def pushBack (q : QQueue ι α) (node : α) : Option (QQueue ι α) := do
  let last ← q.num "last"
  let q := q.set (.index last) (some (.node node))
  some (q.set (.name "last") (some (.num (last - 1))))

/-- `QQueue:popFront`, with what it returns. -/
def popFront (q : QQueue ι α) : Option (Option (Field ι α) × QQueue ι α) := do
  let first := (← q.num "first") - 1
  if first = (← q.num "last") then some (none, q)
  else
    let q := q.set (.name "first") (some (.num first))
    let node := q.list (.index first)
    some (node, q.set (.index first) none)

/-- `QQueue:popBack`, with what it returns. -/
def popBack (q : QQueue ι α) : Option (Option (Field ι α) × QQueue ι α) := do
  let last := (← q.num "last") + 1
  if (← q.num "first") = last then some (none, q)
  else
    let q := q.set (.name "last") (some (.num last))
    let node := q.list (.index last)
    some (node, q.set (.index last) none)

/-- A call, with what it returns; `none` where it raises. -/
def exec (q : QQueue ι α) : Op α → Option (Option (Field ι α) × QQueue ι α)
  | .pushFront node => (q.pushFront node).map (none, ·)
  | .pushBack node => (q.pushBack node).map (none, ·)
  | .popFront => q.popFront
  | .popBack => q.popBack

/-- What the calls return, one after the other, and the queue that they leave. -/
def run (q : QQueue ι α) : List (Op α) → Option (List (Option (Field ι α)) × QQueue ι α)
  | [] => some ([], q)
  | op :: ops => do
    let (v, q) ← q.exec op
    let (vs, q) ← q.run ops
    some (v :: vs, q)

end QQueue

/-! ## The list of the nodes -/

/-- What a deque returns and becomes; the front is the head of the list. -/
def Op.on : Op α → List α → Option α × List α
  | .pushFront x, d => (none, x :: d)
  | .pushBack x, d => (none, d ++ [x])
  | .popFront, d => (d.head?, d.tail)
  | .popBack, d => (d.getLast?, d.dropLast)

/-- What a deque returns to all the calls. -/
def answers (d : List α) : List (Op α) → List (Option α)
  | [] => []
  | op :: ops => (op.on d).1 :: answers (op.on d).2 ops

/-- What is in a deque after the calls. -/
def contents (d : List α) (ops : List (Op α)) : List α :=
  ops.foldl (fun d op => (op.on d).2) d

/-- So many indices are told apart in a ring of characteristic `c`. -/
def Fits (c n : Nat) : Prop := c = 0 ∨ n < c

theorem Fits.mono {m : Nat} (h : Fits c n) (hm : m ≤ n) : Fits c m :=
  h.imp id fun h => Nat.lt_of_le_of_lt hm h

theorem Fits.cast_ne_zero [Ring ι] [CharP ι c] (h : Fits c n) (hn : n ≠ 0) : (n : ι) ≠ 0 := by
  rw [Ne, CharP.cast_eq_zero_iff ι c]
  intro hd
  rcases h with rfl | h
  · exact hn (Nat.eq_zero_of_zero_dvd hd)
  · exact Nat.not_lt.mpr (Nat.le_of_dvd (Nat.pos_of_ne_zero hn) hd) h

/-- The index of a node, by the number of nodes in front of it. -/
def place [Ring ι] (first : ι) (i : Nat) : ι := first - (i + 1 : Nat)

section

variable [Ring ι] (a : ι) (i : Nat)

theorem place_zero : place a 0 = a - 1 := by
  rw [place, Nat.zero_add, Nat.cast_one]

theorem place_succ : place a (i + 1) = place a i - 1 := by
  simp only [place, Nat.cast_add, Nat.cast_one]
  abel

theorem place_sub_one : place (a - 1) i = place a (i + 1) := by
  simp only [place, Nat.cast_add, Nat.cast_one]
  abel

theorem place_add_one_zero : place (a + 1) 0 = a := by
  rw [place_zero, add_sub_cancel_right]

theorem place_add_one_succ : place (a + 1) (i + 1) = place a i := by
  rw [← place_sub_one, add_sub_cancel_right]

variable {a i}

/-- Different nodes have different indices. -/
theorem Fits.place_ne [CharP ι c] (h : Fits c n) {i j : Nat} (hi : i ≤ n) (hj : j ≤ n)
    (hne : i ≠ j) : place a i ≠ place a j := by
  have key : ∀ {i j : Nat}, i < j → j ≤ n → place a i ≠ place a j := by
    intro i j hlt hj e
    have e : ((i + 1 : Nat) : ι) = (j + 1 : Nat) := sub_right_injective e
    refine (h.mono (Nat.le_trans (Nat.sub_le j i) hj)).cast_ne_zero (ι := ι) (by omega) ?_
    have hsub : j - i = j + 1 - (i + 1) := by omega
    rw [hsub, Nat.cast_sub (by omega), e, sub_self]
  rcases Nat.lt_or_gt_of_ne hne with hlt | hlt
  · exact key hlt hj
  · exact (key hlt hi).symm

end

namespace QQueue

section

variable [DecidableEq ι]

theorem list_set (q : QQueue ι α) (k k' : Key ι) (v : Option (Field ι α)) :
    (q.set k v).list k' = if k' = k then v else q.list k' :=
  Function.update_apply ..

@[simp] theorem list_set_self (q : QQueue ι α) (k : Key ι) (v : Option (Field ι α)) :
    (q.set k v).list k = v := by
  rw [list_set, if_pos rfl]

@[simp] theorem list_set_name_index (q : QQueue ι α) (s : String) (i : ι)
    (v : Option (Field ι α)) : (q.set (.name s) v).list (.index i) = q.list (.index i) := by
  rw [list_set, if_neg (by simp)]

@[simp] theorem list_set_index_name (q : QQueue ι α) (s : String) (i : ι)
    (v : Option (Field ι α)) : (q.set (.index i) v).list (.name s) = q.list (.name s) := by
  rw [list_set, if_neg (by simp)]

theorem list_set_index_ne (q : QQueue ι α) {i j : ι} (h : i ≠ j) (v : Option (Field ι α)) :
    (q.set (.index j) v).list (.index i) = q.list (.index i) := by
  rw [list_set, if_neg (by simpa using h)]

theorem list_set_name_ne (q : QQueue ι α) {s s' : String} (h : s ≠ s') (v : Option (Field ι α)) :
    (q.set (.name s') v).list (.name s) = q.list (.name s) := by
  rw [list_set, if_neg (by simpa using h)]

end

variable [Ring ι] {q : QQueue ι α} {a : ι}

/-- The nodes of `d` are in the queue, from `first - 1` down to `last + 1`. -/
structure Held (c : Nat) (q : QQueue ι α) (a : ι) (d : List α) : Prop where
  first : q.list (.name "first") = some (.num a)
  last : q.list (.name "last") = some (.num (place a d.length))
  nodes : ∀ i x, d[i]? = some x → q.list (.index (place a i)) = some (.node x)
  fits : Fits c d.length

theorem held_new : (new : QQueue ι α).Held c 0 [] where
  first := rfl
  last := by rw [List.length_nil, place_zero, zero_sub]; rfl
  nodes _ _ h := by simp at h
  fits := Nat.eq_zero_or_pos c

namespace Held

theorem num_first (h : q.Held c a d) : q.num "first" = some a := by
  simp only [num, h.first]

theorem num_last (h : q.Held c a d) : q.num "last" = some (place a d.length) := by
  simp only [num, h.last]

variable [DecidableEq ι] [CharP ι c]

theorem pushFront (h : q.Held c a d) (x : α) (hfit : Fits c (x :: d).length) :
    ∃ q', q.pushFront x = some q' ∧ q'.Held c (a + 1) (x :: d) := by
  refine ⟨(q.set (.index a) (some (.node x))).set (.name "first") (some (.num (a + 1))), ?_, ?_, ?_,
    fun i y hi => ?_, hfit⟩
  · simp only [QQueue.pushFront, h.num_first, Option.bind_eq_bind, Option.bind_some]
  · rw [list_set_self]
  · rw [list_set_name_ne _ (by decide), list_set_index_name, h.last, List.length_cons,
      place_add_one_succ]
  · rw [list_set_name_index]
    cases i with
    | zero =>
      cases hi
      rw [place_add_one_zero, list_set_self]
    | succ i =>
      have hlt : i < d.length := Nat.lt_of_succ_lt_succ (List.getElem?_eq_some_iff.mp hi).1
      have hne : place (a + 1) (i + 1) ≠ place (a + 1) 0 :=
        h.fits.place_ne hlt (Nat.zero_le _) (Nat.succ_ne_zero i)
      rw [place_add_one_zero] at hne
      rw [list_set_index_ne _ hne, place_add_one_succ]
      exact h.nodes i y hi

theorem pushBack (h : q.Held c a d) (x : α) (hfit : Fits c (d ++ [x]).length) :
    ∃ q', q.pushBack x = some q' ∧ q'.Held c a (d ++ [x]) := by
  have hlen : (d ++ [x]).length = d.length + 1 := List.length_append
  refine ⟨(q.set (.index (place a d.length)) (some (.node x))).set (.name "last")
    (some (.num (place a d.length - 1))), ?_, ?_, ?_, fun i y hi => ?_, hfit⟩
  · simp only [QQueue.pushBack, h.num_last, Option.bind_eq_bind, Option.bind_some]
  · rw [list_set_name_ne _ (by decide), list_set_index_name, h.first]
  · rw [list_set_self, hlen, place_succ]
  · rw [list_set_name_index]
    rcases Nat.lt_or_ge i d.length with hlt | hge
    · rw [List.getElem?_append_left hlt] at hi
      rw [list_set_index_ne _ (h.fits.place_ne hlt.le (Nat.le_refl _) hlt.ne)]
      exact h.nodes i y hi
    · rw [List.getElem?_append_right hge, List.getElem?_singleton] at hi
      split at hi
      · rename_i hz
        cases hi
        obtain rfl : i = d.length := by omega
        rw [list_set_self]
      · cases hi

theorem popFront (h : q.Held c a d) : ∃ a' q',
    q.popFront = some (d.head?.map .node, q') ∧ q'.Held c a' d.tail := by
  cases d with
  | nil =>
    refine ⟨a, q, ?_, h⟩
    simp only [QQueue.popFront, h.num_first, h.num_last, Option.bind_eq_bind, Option.bind_some]
    rw [List.length_nil, if_pos (place_zero a).symm]
    rfl
  | cons x d =>
    have hx : q.list (.index (a - 1)) = some (.node x) := place_zero a ▸ h.nodes 0 x rfl
    have hne : a - 1 ≠ place a (x :: d).length :=
      place_zero a ▸ h.fits.place_ne (Nat.zero_le _) (Nat.le_refl _) (by simp)
    refine ⟨a - 1, (q.set (.name "first") (some (.num (a - 1)))).set (.index (a - 1)) none, ?_, ?_,
      ?_, fun i y hi => ?_, h.fits.mono (Nat.le_succ _)⟩
    · simp only [QQueue.popFront, h.num_first, h.num_last, Option.bind_eq_bind, Option.bind_some]
      rw [if_neg hne, list_set_name_index, hx]
      rfl
    · rw [list_set_index_name, list_set_self]
    · rw [list_set_index_name, list_set_name_ne _ (by decide), h.last, List.tail_cons,
        List.length_cons, place_sub_one]
    · have hlt : i < d.length := (List.getElem?_eq_some_iff.mp hi).1
      have hne : place a (i + 1) ≠ place a 0 :=
        h.fits.place_ne (Nat.succ_le_succ hlt.le) (Nat.zero_le _) (Nat.succ_ne_zero i)
      rw [place_zero] at hne
      rw [place_sub_one, list_set_index_ne _ hne, list_set_name_index]
      exact h.nodes (i + 1) y hi

theorem popBack (h : q.Held c a d) : ∃ q',
    q.popBack = some (d.getLast?.map .node, q') ∧ q'.Held c a d.dropLast := by
  rcases List.eq_nil_or_concat d with rfl | ⟨d, x, rfl⟩
  · refine ⟨q, ?_, h⟩
    simp only [QQueue.popBack, h.num_first, h.num_last, Option.bind_eq_bind, Option.bind_some]
    rw [if_pos (by rw [List.length_nil, place_zero, sub_add_cancel])]
    rfl
  · rw [List.concat_eq_append] at h ⊢
    have hlen : (d ++ [x]).length = d.length + 1 := List.length_append
    have hlast : place a (d ++ [x]).length + 1 = place a d.length := by
      rw [hlen, place_succ, sub_add_cancel]
    have hx : q.list (.index (place a d.length)) = some (.node x) :=
      h.nodes d.length x List.getElem?_concat_length
    have hne : a ≠ place a d.length := by
      have hne : place (a + 1) 0 ≠ place (a + 1) (d.length + 1) :=
        h.fits.place_ne (Nat.zero_le _) hlen.ge (Nat.succ_ne_zero _).symm
      rwa [place_add_one_zero, place_add_one_succ] at hne
    have hfit : Fits c d.length := h.fits.mono (hlen ▸ Nat.le_succ _)
    refine ⟨(q.set (.name "last") (some (.num (place a d.length)))).set
      (.index (place a d.length)) none, ?_, ?_, ?_, fun i y hi => ?_, ?_⟩
    · simp only [QQueue.popBack, h.num_first, h.num_last, Option.bind_eq_bind, Option.bind_some]
      rw [hlast, if_neg hne, list_set_name_index, hx, List.getLast?_concat]
      rfl
    · rw [list_set_index_name, list_set_name_ne _ (by decide), h.first]
    · rw [list_set_index_name, list_set_self, List.dropLast_concat]
    · rw [List.dropLast_concat] at hi
      have hlt : i < d.length := (List.getElem?_eq_some_iff.mp hi).1
      rw [list_set_index_ne _ (hfit.place_ne hlt.le (Nat.le_refl _) hlt.ne), list_set_name_index]
      exact h.nodes i y (by rwa [List.getElem?_append_left hlt])
    · rwa [List.dropLast_concat]

/-- Every call answers as the list does, and leaves the list in the queue. -/
theorem exec (h : q.Held c a d) (op : Op α) (hfit : Fits c (op.on d).2.length) : ∃ a' q',
    q.exec op = some ((op.on d).1.map .node, q') ∧ q'.Held c a' (op.on d).2 := by
  cases op with
  | pushFront x =>
    obtain ⟨q', e, h'⟩ := h.pushFront x hfit
    exact ⟨a + 1, q', congrArg (Option.map (none, ·)) e, h'⟩
  | pushBack x =>
    obtain ⟨q', e, h'⟩ := h.pushBack x hfit
    exact ⟨a, q', congrArg (Option.map (none, ·)) e, h'⟩
  | popFront => exact h.popFront
  | popBack =>
    obtain ⟨q', e, h'⟩ := h.popBack
    exact ⟨a, q', e, h'⟩

/-- So do all the calls, as long as the nodes fit. -/
theorem run (ops : List (Op α)) (h : q.Held c a d)
    (hfit : ∀ n, Fits c (contents d (ops.take n)).length) : ∃ a' q',
    q.run ops = some ((answers d ops).map (Option.map .node), q') ∧
      q'.Held c a' (contents d ops) := by
  induction ops generalizing q a d with
  | nil => exact ⟨a, q, rfl, h⟩
  | cons op ops ih =>
    obtain ⟨a₁, q₁, e₁, h₁⟩ := h.exec op (hfit 1)
    obtain ⟨a₂, q₂, e₂, h₂⟩ := ih h₁ fun n => hfit (n + 1)
    refine ⟨a₂, q₂, ?_, h₂⟩
    simp only [QQueue.run, e₁, Option.bind_eq_bind, Option.bind_some, e₂]
    rfl

end Held

/-- A new queue answers every sequence of calls as a deque does. -/
theorem run_answers (ops : List (Op α)) :
    ((new : QQueue ℤ α).run ops).map Prod.fst =
      some ((answers [] ops).map (Option.map Field.node)) := by
  obtain ⟨a, q, e, -⟩ := (held_new (ι := ℤ) (c := 0)).run ops fun _ => .inl rfl
  rw [e]
  rfl

/-- It does so with the integers of the machine, as long as they are more than its nodes. -/
theorem run_answers_wrap (ops : List (Op α))
    (hfit : ∀ n, (contents [] (ops.take n)).length < 2 ^ 64) :
    ((new : QQueue (BitVec 64) α).run ops).map Prod.fst =
      some ((answers [] ops).map (Option.map Field.node)) := by
  have hchar : CharP (BitVec 64) (2 ^ 64) := ⟨fun n => by
    show BitVec.ofNat 64 n = BitVec.ofNat 64 0 ↔ _
    rw [← BitVec.toNat_inj, BitVec.toNat_ofNat, BitVec.toNat_ofNat, Nat.dvd_iff_mod_eq_zero]⟩
  obtain ⟨a, q, e, -⟩ := (held_new (ι := BitVec 64) (c := 2 ^ 64)).run ops fun n => .inr (hfit n)
  rw [e]
  rfl

/-- The calls at the end of the file, and two that find the queue empty. -/
example : ((new : QQueue ℤ Nat).run [.pushFront 1, .pushFront 2, .popBack, .pushBack 3,
    .pushFront 2, .popFront, .popFront, .popBack, .popBack, .popFront]).map Prod.fst =
    some [none, none, some (.node 1), none, none, some (.node 2), some (.node 2), some (.node 3),
      none, none] := by
  decide

end QQueue

end SkynetHotfix.Algorithm
