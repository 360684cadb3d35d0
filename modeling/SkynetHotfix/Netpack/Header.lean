import SkynetHotfix.Lib.Framing
import SkynetHotfix.Netpack.Basic
import Mathlib.Data.List.GetD

/-!
# Reading headers

`read_size` sees a header when it has the bytes that its second byte asks for
(`need`), and reads nothing behind them (`read_size_append`, `read_size_take`).
A byte less and it asks for more, so the byte that completes a header is the
last of it (`read_size_snoc`).
-/

namespace SkynetHotfix.Netpack

open WebSocket (Key mask ofBE)

/-- The first byte is refused. -/
def refused (b₀ : UInt8) : Prop :=
  b₀ >>> 4 &&& 0x7 ≠ 0 ∨ b₀ >>> 7 &&& 0x1 = 0 ∨ b₀ &&& 0xf = 0

instance (b₀ : UInt8) : Decidable (refused b₀) :=
  inferInstanceAs (Decidable (_ ∨ _ ∨ _))

/-- The mask bit. -/
def masked (b₁ : UInt8) : Bool := b₁ >>> 7 &&& 0x1 != 0

/-- The bytes of a header with its length. -/
def lengthEnd (b₁ : UInt8) : Nat :=
  if b₁ &&& 0x7f < 0x7E then 2 else if b₁ &&& 0x7f = 0x7E then 4 else 10

/-- The bytes of a header. -/
def need (b₁ : UInt8) : Nat := lengthEnd b₁ + if masked b₁ then 4 else 0

/-- The size that a header gives. -/
def sizeOf (b₁ : UInt8) (rest : List UInt8) : Int :=
  if b₁ &&& 0x7f < 0x7E then (b₁ &&& 0x7f).toNat
  else if b₁ &&& 0x7f = 0x7E then ofBE (rest.take 2)
  else (ofBE (rest.take 8) : Int).bmod (2 ^ 32)

/-- What `read_size` makes of a header that is there. -/
def complete (b₀ b₁ : UInt8) (rest : List UInt8) : ReadSize where
  pack_size := sizeOf b₁ rest
  pack_head_length := need b₁
  mask := if masked b₁ then fun i => (b₀ :: b₁ :: rest).getD (lengthEnd b₁ + i) 0 else fun _ => 0
  ismask := masked b₁

theorem readMask_eq (b₀ b₁ : UInt8) (rest : List UInt8) :
    readMask (b₀ :: b₁ :: rest) (masked b₁) (lengthEnd b₁) (sizeOf b₁ rest) =
      if rest.length + 2 < need b₁ ∧ masked b₁ then .only (-1) else complete b₀ b₁ rest := by
  cases hm : masked b₁ with
  | false => simp [readMask, complete, need, hm, ReadSize.only]
  | true =>
    have hneed : need b₁ = lengthEnd b₁ + WEBSOCKET_MASK_LEN := by rw [need, hm]; rfl
    have hcomplete : complete b₀ b₁ rest = ⟨sizeOf b₁ rest, need b₁,
        fun i => (b₀ :: b₁ :: rest).getD (lengthEnd b₁ + i) 0, true⟩ := by
      rw [complete, hm]
      rfl
    rw [readMask, if_pos rfl, hcomplete, hneed]
    by_cases h : rest.length + 2 < lengthEnd b₁ + WEBSOCKET_MASK_LEN
    · rw [if_pos (show _ > (b₀ :: b₁ :: rest).length from h), if_pos ⟨h, rfl⟩]
    · rw [if_neg (show ¬ _ > (b₀ :: b₁ :: rest).length from h), if_neg fun hc => h hc.1]

theorem read_size_cons (b₀ b₁ : UInt8) (rest : List UInt8) :
    read_size (b₀ :: b₁ :: rest) =
      if refused b₀ then .only (-2)
      else if rest.length + 2 < need b₁ then .only (-1)
      else complete b₀ b₁ rest := by
  have hmask := readMask_eq b₀ b₁ rest
  have hneed : need b₁ = lengthEnd b₁ + if masked b₁ then 4 else 0 := rfl
  have hend : ∀ n, lengthEnd b₁ = n → ¬ rest.length + 2 < n →
      readMask (b₀ :: b₁ :: rest) (masked b₁) n (sizeOf b₁ rest) =
        if rest.length + 2 < need b₁ then .only (-1) else complete b₀ b₁ rest := by
    intro n hn hle
    subst hn
    rw [hmask]
    congr 1
    rw [eq_iff_iff, and_iff_left_iff_imp]
    intro hlt
    cases hm : masked b₁ with
    | true => rfl
    | false =>
      rw [hneed, hm] at hlt
      exact absurd hlt hle
  have hshort : ∀ n, lengthEnd b₁ = n → rest.length + 2 < n → rest.length + 2 < need b₁ := by
    intro n hn hlt
    rw [hneed, hn]
    omega
  rw [read_size]
  by_cases hr : refused b₀
  · rw [if_pos hr]
    rcases hr with hr | hr
    · rw [if_pos hr]
    · rw [if_pos hr]
      split <;> rfl
  · have hr' := hr
    rw [refused, not_or] at hr'
    rw [if_neg hr'.1, if_neg hr'.2, if_neg hr]
    by_cases h₇ : b₁ &&& 0x7f < 0x7E
    · have hsize : sizeOf b₁ rest = (b₁ &&& 0x7f).toNat := by rw [sizeOf, if_pos h₇]
      rw [if_pos h₇, ← hsize]
      exact hend 2 (by rw [lengthEnd, if_pos h₇]) (by omega)
    · by_cases h₁₆ : b₁ &&& 0x7f = 0x7E
      · have hsize : sizeOf b₁ rest = ofBE (rest.take 2) := by
          rw [sizeOf, if_neg h₇, if_pos h₁₆]
        have hlen : lengthEnd b₁ = 4 := by rw [lengthEnd, if_neg h₇, if_pos h₁₆]
        rw [if_neg h₇, if_pos h₁₆, ← hsize]
        split
        · rename_i hlt
          rw [if_pos (hshort 4 hlen hlt)]
        · rename_i hlt
          exact hend 4 hlen hlt
      · have hsize : sizeOf b₁ rest = (ofBE (rest.take 8) : Int).bmod (2 ^ 32) := by
          rw [sizeOf, if_neg h₇, if_neg h₁₆]
        have hlen : lengthEnd b₁ = 10 := by rw [lengthEnd, if_neg h₇, if_neg h₁₆]
        rw [if_neg h₇, if_neg h₁₆, ← hsize]
        split
        · rename_i hlt
          rw [if_pos (hshort 10 hlen hlt)]
        · rename_i hlt
          exact hend 10 hlen hlt

theorem lengthEnd_bounds (b₁ : UInt8) : 2 ≤ lengthEnd b₁ ∧ lengthEnd b₁ ≤ 10 := by
  rw [lengthEnd]
  split
  · decide
  · split <;> decide

theorem need_bounds (b₁ : UInt8) : 2 ≤ need b₁ ∧ need b₁ ≤ 14 := by
  have h := lengthEnd_bounds b₁
  rw [need]
  split <;> omega

/-- A header that is there does not depend on what follows. -/
theorem complete_append {b₀ b₁ : UInt8} {rest : List UInt8} (h : need b₁ ≤ rest.length + 2)
    (b : List UInt8) : complete b₀ b₁ (rest ++ b) = complete b₀ b₁ rest := by
  have hend : lengthEnd b₁ ≤ rest.length + 2 := by
    rw [need] at h
    omega
  have hsize : sizeOf b₁ (rest ++ b) = sizeOf b₁ rest := by
    rw [lengthEnd] at hend
    rw [sizeOf, sizeOf]
    split
    · rfl
    · rename_i h₇
      rw [if_neg h₇] at hend
      split
      · rename_i h₁₆
        rw [if_pos h₁₆] at hend
        rw [List.take_append_of_le_length (by omega)]
      · rename_i h₁₆
        rw [if_neg h₁₆] at hend
        rw [List.take_append_of_le_length (by omega)]
  rw [complete, complete, hsize]
  cases hm : masked b₁ with
  | false => rfl
  | true =>
    have hmask : (fun i : Fin 4 => (b₀ :: b₁ :: (rest ++ b)).getD (lengthEnd b₁ + i) 0) =
        fun i : Fin 4 => (b₀ :: b₁ :: rest).getD (lengthEnd b₁ + i) 0 := by
      funext i
      have hi := i.isLt
      rw [need, hm, if_pos rfl] at h
      rw [← List.cons_append, ← List.cons_append]
      exact List.getD_append _ _ _ _ (by simp; omega)
    rw [if_pos rfl, if_pos rfl, hmask]

/-- What `read_size` can see: nothing yet, a byte that it refuses, or a header. -/
inductive Seen : List UInt8 → ReadSize → Prop
  | wait {bs : List UInt8} (hlen : bs.length < 14) : Seen bs (.only (-1))
  | refuse {b₀ b₁ : UInt8} {rest : List UInt8} : Seen (b₀ :: b₁ :: rest) (.only (-2))
  | header {b₀ b₁ : UInt8} {rest : List UInt8} (hlen : need b₁ ≤ rest.length + 2) :
      Seen (b₀ :: b₁ :: rest) (complete b₀ b₁ rest)

theorem seen_read_size : ∀ bs, Seen bs (read_size bs)
  | [] => .wait (by decide)
  | [_] => .wait (show 1 < 14 by decide)
  | b₀ :: b₁ :: rest => by
    rw [read_size_cons]
    split
    · exact .refuse
    · split
      · have h := need_bounds b₁
        exact .wait (by simp; omega)
      · exact .header (by omega)

theorem complete_ne_only {b₀ b₁ : UInt8} {rest : List UInt8} (n : Int) :
    complete b₀ b₁ rest ≠ .only n := by
  intro h
  have h := congrArg ReadSize.pack_head_length h
  have hn := need_bounds b₁
  have h : need b₁ = 0 := h
  omega

theorem only_inj {m n : Int} (h : ReadSize.only m = .only n) : m = n :=
  congrArg ReadSize.pack_size h

/-- What `read_size` has seen it sees again when more has come. -/
theorem read_size_append {a : List UInt8} (h : read_size a ≠ .only (-1)) (b : List UInt8) :
    read_size (a ++ b) = read_size a := by
  match a with
  | [] => exact absurd rfl h
  | [_] => exact absurd rfl h
  | b₀ :: b₁ :: rest =>
    rw [read_size_cons] at h ⊢
    rw [List.cons_append, List.cons_append, read_size_cons]
    split
    · rfl
    · rename_i hr
      rw [if_neg hr] at h
      by_cases hlt : rest.length + 2 < need b₁
      · exact absurd (if_pos hlt) h
      · rw [if_neg hlt, if_neg (by rw [List.length_append]; omega), complete_append (by omega)]

/-- A header is seen with its last byte. -/
theorem read_size_snoc {a : List UInt8} {b : UInt8} (ha : read_size a = .only (-1))
    (h : read_size (a ++ [b]) ≠ .only (-1)) :
    (read_size (a ++ [b]) = .only (-2) ∧ a.length = 1) ∨
      (read_size (a ++ [b])).pack_head_length = a.length + 1 := by
  match a with
  | [] => exact absurd rfl h
  | [b₀] =>
    rw [List.singleton_append, read_size_cons] at h ⊢
    split
    · exact .inl ⟨rfl, rfl⟩
    · rename_i hr
      rw [if_neg hr] at h
      split
      · rename_i hlt
        exact absurd (if_pos hlt) h
      · rename_i hlt
        have hn := need_bounds b
        refine .inr (show need b = 2 from ?_)
        simp at hlt
        omega
  | b₀ :: b₁ :: rest =>
    rw [read_size_cons] at ha
    rw [List.cons_append, List.cons_append, read_size_cons] at h ⊢
    split at ha
    · exact absurd (only_inj ha) (by decide)
    · rename_i hr
      rw [if_neg hr] at h ⊢
      split at ha
      · rename_i hlt
        split
        · rename_i hlt'
          exact absurd (if_pos hlt') h
        · rename_i hlt'
          refine .inr (show need b₁ = rest.length + 2 + 1 from ?_)
          rw [List.length_append, List.length_singleton] at hlt'
          omega
      · exact absurd ha (complete_ne_only _)

/-- A size other than those for waiting and refusing comes with a header. -/
theorem head_length_le {bs : List UInt8} (h₁ : read_size bs ≠ .only (-1))
    (h₂ : read_size bs ≠ .only (-2)) :
    2 ≤ (read_size bs).pack_head_length ∧ (read_size bs).pack_head_length ≤ bs.length := by
  have hseen := seen_read_size bs
  generalize read_size bs = r at *
  cases hseen with
  | wait _ => exact absurd rfl h₁
  | refuse => exact absurd rfl h₂
  | header hlen => exact ⟨(need_bounds _).1, hlen⟩

/-- A header is seen in its own bytes. -/
theorem read_size_take {bs : List UInt8} (h₁ : read_size bs ≠ .only (-1))
    (h₂ : read_size bs ≠ .only (-2)) :
    read_size (bs.take (read_size bs).pack_head_length) = read_size bs := by
  match bs with
  | [] => exact absurd rfl h₁
  | [_] => exact absurd rfl h₁
  | b₀ :: b₁ :: rest =>
    have hn := need_bounds b₁
    rw [read_size_cons] at h₁ h₂ ⊢
    split at h₂
    · exact absurd rfl h₂
    · rename_i hr
      rw [if_neg hr] at h₁ ⊢
      split at h₂
      · rename_i hlt
        exact absurd (if_pos hlt) h₁
      · rename_i hlt
        rw [if_neg hlt]
        obtain ⟨n, hneed⟩ : ∃ n, need b₁ = n + 2 := ⟨need b₁ - 2, by omega⟩
        have hlen : (rest.take n).length = n := List.length_take_of_le (by omega)
        have htake : (b₀ :: b₁ :: rest).take (complete b₀ b₁ rest).pack_head_length =
            b₀ :: b₁ :: rest.take n := by
          rw [show (complete b₀ b₁ rest).pack_head_length = n + 2 from hneed]
          rfl
        have happ : complete b₀ b₁ (rest.take n ++ rest.drop n) = complete b₀ b₁ (rest.take n) :=
          complete_append (by omega) (rest.drop n)
        rw [List.take_append_drop] at happ
        rw [htake, read_size_cons, if_neg hr, if_neg (by omega), happ]

theorem two_le_length {bs : List UInt8} (h : read_size bs ≠ .only (-1)) : 2 ≤ bs.length := by
  match bs with
  | [] => exact absurd rfl h
  | [_] => exact absurd rfl h
  | _ :: _ :: rest => simp

end SkynetHotfix.Netpack
