import Mathlib.Data.List.Chain
import Mathlib.Data.List.Sublists
import Mathlib.Data.Nat.Choose.Basic

/-!
# Choices as bit vectors

The vectors of `m` bits of which `n` are set, in the order of the numbers whose
low bits come first (`vectors`). Each is the `Next` of the one before it: the
first set bit with a clear bit behind it moves one place, and the set bits
before it move to the front. `select` takes the items of a list that a vector
chooses; the vectors give each sublist of `n` items once (`select_perm`).
-/

namespace Choose

open List (replicate)

variable {α β : Type*} {m n : Nat} {u v w : List Bool} {l l' : List α}

/-- The vectors of `m` bits, `n` of them set. -/
def vectors : Nat → Nat → List (List Bool)
  | 0, 0 => [[]]
  | 0, _ + 1 => []
  | m + 1, 0 => (vectors m 0).map (· ++ [false])
  | m + 1, n + 1 => (vectors m (n + 1)).map (· ++ [false]) ++ (vectors m n).map (· ++ [true])

/-- The vector with all set bits in front. -/
def first (m n : Nat) : List Bool := replicate n true ++ replicate (m - n) false

/-- The vector with all set bits at the end. -/
def last (m n : Nat) : List Bool := replicate (m - n) false ++ replicate n true

/-- The next vector in order. -/
def Next (u v : List Bool) : Prop :=
  ∃ a b r, u = replicate a false ++ (replicate (b + 1) true ++ false :: r) ∧
    v = replicate b true ++ (replicate (a + 1) false ++ true :: r)

theorem Next.append (h : Next u v) (x : Bool) : Next (u ++ [x]) (v ++ [x]) := by
  obtain ⟨a, b, r, rfl, rfl⟩ := h
  exact ⟨a, b, r ++ [x], by simp, by simp⟩

theorem mem_vectors : v ∈ vectors m n ↔ v.length = m ∧ v.count true = n := by
  induction m generalizing n v with
  | zero =>
    cases n with
    | zero => simp +contextual [vectors]
    | succ n => simp +contextual [vectors]
  | succ m ih =>
    rcases v.eq_nil_or_concat with rfl | ⟨v, x, rfl⟩
    · cases n <;> simp [vectors]
    · cases n <;> cases x <;> simp [vectors, ih]

theorem nodup_vectors : (vectors m n).Nodup := by
  have hinj : ∀ x : Bool, Function.Injective fun v : List Bool => v ++ [x] :=
    fun x _ _ h => List.append_cancel_right h
  induction m generalizing n with
  | zero => cases n <;> simp [vectors]
  | succ m ih =>
    cases n with
    | zero => exact ih.map (hinj false)
    | succ n =>
      refine List.nodup_append'.mpr ⟨ih.map (hinj false), ih.map (hinj true), ?_⟩
      intro v hv hv'
      obtain ⟨u, -, rfl⟩ := List.mem_map.mp hv
      obtain ⟨w, -, e⟩ := List.mem_map.mp hv'
      simp at e

theorem length_vectors : (vectors m n).length = m.choose n := by
  induction m generalizing n with
  | zero => cases n <;> rfl
  | succ m ih =>
    cases n with
    | zero => simp [vectors, ih]
    | succ n => simp [vectors, ih, Nat.choose_succ_succ, Nat.add_comm]

theorem vectors_eq_nil (h : m < n) : vectors m n = [] := by
  rw [← List.length_eq_zero_iff, length_vectors, Nat.choose_eq_zero_of_lt h]

theorem head_vectors (h : n ≤ m) : (vectors m n).head? = some (first m n) := by
  induction m generalizing n with
  | zero =>
    cases Nat.le_zero.mp h
    rfl
  | succ m ih =>
    cases n with
    | zero => simp [vectors, ih, first, List.replicate_succ']
    | succ n =>
      by_cases hn : n + 1 ≤ m
      · have hm : m + 1 - (n + 1) = m - (n + 1) + 1 := by omega
        simp [vectors, ih hn, first, hm, List.replicate_succ' (n := m - (n + 1))]
      · have hm : m = n := by omega
        subst hm
        simp [vectors, vectors_eq_nil (Nat.lt_succ_self m), ih (Nat.le_refl m), first,
          List.replicate_succ' (n := m)]

theorem getLast_vectors (h : n ≤ m) : (vectors m n).getLast? = some (last m n) := by
  induction m generalizing n with
  | zero =>
    cases Nat.le_zero.mp h
    rfl
  | succ m ih =>
    cases n with
    | zero => simp [vectors, ih, last, List.replicate_succ']
    | succ n =>
      have hn := Nat.le_of_succ_le_succ h
      simp [vectors, List.getLast?_append, ih hn, last, List.replicate_succ' (n := n)]

theorem isChain_vectors : (vectors m n).IsChain Next := by
  have hmap : ∀ (l : List (List Bool)) (x : Bool), l.IsChain Next →
      (l.map (· ++ [x])).IsChain Next := fun l x h =>
    List.isChain_map_of_isChain _ (fun _ _ h => h.append x) h
  induction m generalizing n with
  | zero => cases n <;> simp [vectors]
  | succ m ih =>
    cases n with
    | zero => exact hmap _ _ ih
    | succ n =>
      refine List.isChain_append.mpr ⟨hmap _ _ ih, hmap _ _ ih, fun u hu v hv => ?_⟩
      by_cases hn : n + 1 ≤ m
      · rw [List.getLast?_map, getLast_vectors hn] at hu
        rw [List.head?_map, head_vectors (Nat.le_of_succ_le hn)] at hv
        cases hu
        cases hv
        have hm : m - n = m - (n + 1) + 1 := by omega
        exact ⟨m - (n + 1), n, [], by simp [last], by simp [first, hm]⟩
      · rw [vectors_eq_nil (Nat.lt_of_not_le hn)] at hu
        cases hu

/-! ## Selections -/

/-- The items of a list at the set bits. -/
def select : List Bool → List α → List α
  | true :: v, x :: l => x :: select v l
  | false :: v, _ :: l => select v l
  | _, _ => []

theorem select_map (f : α → β) (v : List Bool) (l : List α) :
    select v (l.map f) = (select v l).map f := by
  induction v generalizing l with
  | nil => cases l <;> rfl
  | cons b v ih =>
    cases l with
    | nil => cases b <;> rfl
    | cons x l => cases b <;> simp [select, ih]

theorem select_sublist (v : List Bool) (l : List α) : (select v l).Sublist l := by
  induction v generalizing l with
  | nil => cases l <;> simp [select]
  | cons b v ih =>
    cases l with
    | nil => cases b <;> simp [select]
    | cons x l =>
      cases b with
      | false => exact (ih l).cons x
      | true => exact (ih l).cons_cons x

theorem length_select (h : v.length = l.length) : (select v l).length = v.count true := by
  induction v generalizing l with
  | nil => cases l <;> rfl
  | cons b v ih =>
    cases l with
    | nil => cases h
    | cons x l => cases b <;> simp [select, ih (Nat.succ.inj h)]

theorem exists_select (h : l'.Sublist l) : ∃ v, v.length = l.length ∧ select v l = l' := by
  induction h with
  | slnil => exact ⟨[], rfl, rfl⟩
  | cons x _ ih =>
    obtain ⟨v, hv, e⟩ := ih
    exact ⟨false :: v, congrArg _ hv, e⟩
  | cons_cons x _ ih =>
    obtain ⟨v, hv, e⟩ := ih
    exact ⟨true :: v, congrArg _ hv, congrArg _ e⟩

theorem select_inj (hl : l.Nodup) (hv : v.length = l.length) (hw : w.length = l.length)
    (h : select v l = select w l) : v = w := by
  induction l generalizing v w with
  | nil => rw [List.length_eq_zero_iff.mp hv, List.length_eq_zero_iff.mp hw]
  | cons x l ih =>
    obtain ⟨hx, hl⟩ := List.nodup_cons.mp hl
    have hout : ∀ (v : List Bool), x ∉ select v l := fun v hm => hx ((select_sublist v l).subset hm)
    cases v with
    | nil => cases hv
    | cons b v =>
      cases w with
      | nil => cases hw
      | cons c w =>
        have ih := ih (v := v) (w := w) hl (Nat.succ.inj hv) (Nat.succ.inj hw)
        cases b <;> cases c
        · rw [ih h]
        · exact absurd (show x ∈ select v l from h ▸ List.mem_cons_self) (hout v)
        · exact absurd (show x ∈ select w l from h.symm ▸ List.mem_cons_self) (hout w)
        · rw [ih (List.cons.inj h).2]

/-- The vectors choose each sublist of `n` items once. -/
theorem select_perm (n : Nat) (hl : l.Nodup) :
    ((vectors l.length n).map (select · l)).Perm (l.sublistsLen n) := by
  have hnodup : ((vectors l.length n).map (select · l)).Nodup := by
    refine nodup_vectors.map_on fun v hv w hw h => ?_
    exact select_inj hl (mem_vectors.mp hv).1 (mem_vectors.mp hw).1 h
  refine (List.perm_ext_iff_of_nodup hnodup (List.nodup_sublistsLen n hl)).mpr fun l' => ?_
  rw [List.mem_sublistsLen, List.mem_map]
  constructor
  · rintro ⟨v, hv, rfl⟩
    obtain ⟨hv, hn⟩ := mem_vectors.mp hv
    exact ⟨select_sublist v l, by rw [length_select hv, hn]⟩
  · rintro ⟨hs, hn⟩
    obtain ⟨v, hv, rfl⟩ := exists_select hs
    exact ⟨v, mem_vectors.mpr ⟨hv, by rw [← length_select hv, hn]⟩, rfl⟩

end Choose
