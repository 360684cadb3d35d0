import SkynetHotfix.Lib.Fuel
import SkynetHotfix.Lib.Utf8

/-!
# Prefixes of UTF-8

`string.subUTF8String` of `common/base/luaext.lua`, on bytes. It goes back from
the cut to the last byte that is not a continuation byte (`subUTF8String_cut`).
Where there is none it comes to the position `0`, at which `string.byte` gives
nothing, as behind the end, and all of the string is returned; in every other
case it is the prefix that was asked for (`subUTF8String_iff`).
-/

namespace SkynetHotfix.Luaext

open Utf8 (Valid isContinuation)

variable {s r : List UInt8} {n : Nat}

/-- A position as `string.byte` and `string.sub` take it: a negative one counts from the end. -/
def posrelat (pos : Int) (len : Nat) : Int :=
  if 0 ≤ pos then pos
  else if len < -pos then 0
  else len + pos + 1

/-- `string.byte(s, i)` -/
def byte (s : List UInt8) (i : Int) : Option UInt8 :=
  let posi := posrelat i s.length
  if posi < 1 then none else s[(posi - 1).toNat]?

/-- `string.sub(s, 1, j)` -/
def subTo (s : List UInt8) (j : Int) : List UInt8 := s.take (posrelat j s.length).toNat

/-- `string.subUTF8String(s, n)` -/
def subUTF8String (fuel : Nat) : Int → List UInt8 → Fuel.Result Unit (List UInt8) :=
  Fuel.run (fun rec n s =>
    match byte s (n + 1) with
    | none => .ok s
    | some dropping => if 128 ≤ dropping && dropping < 192 then rec (n - 1) s else .ok (subTo s n)) fuel

theorem byte_succ (s : List UInt8) (n : Nat) : byte s (n + 1) = s[n]? := by
  have hpos : posrelat (n + 1) s.length = n + 1 := if_pos (by omega)
  simp only [byte, hpos]
  rw [if_neg (by omega)]
  congr
  omega

theorem subTo_eq (s : List UInt8) (n : Nat) : subTo s n = s.take n := by
  rw [subTo, posrelat, if_pos (by omega), Int.toNat_natCast]

/-- Behind the end there is nothing to drop. -/
theorem subUTF8String_of_length_le (h : s.length ≤ n) (fuel : Nat) :
    subUTF8String (fuel + 1) n s = .ok s := by
  rw [subUTF8String, Fuel.run, byte_succ, List.getElem?_eq_none h]

/-- Before the start neither. -/
theorem subUTF8String_neg_one (s : List UInt8) (fuel : Nat) :
    subUTF8String (fuel + 1) (-1) s = .ok s := rfl

theorem subUTF8String_step (h : n < s.length) (fuel : Nat) : subUTF8String (fuel + 1) n s =
    if isContinuation (s.getD n 0) then subUTF8String fuel (n - 1) s else .ok (s.take n) := by
  rw [subUTF8String, Fuel.run, byte_succ, List.getElem?_eq_getElem h, subTo_eq,
    List.getD_eq_getElem?_getD, List.getElem?_eq_getElem h]
  rfl

/-- The last of the first `n + 1` bytes that is not a continuation byte. -/
def lastStart (s : List UInt8) : Nat → Option Nat
  | 0 => if isContinuation (s.getD 0 0) then none else some 0
  | n + 1 => if isContinuation (s.getD (n + 1) 0) then lastStart s n else some (n + 1)

theorem of_lastStart_eq_some {i : Nat} (h : lastStart s n = some i) :
    i ≤ n ∧ isContinuation (s.getD i 0) = false ∧
      ∀ j, i < j → j ≤ n → isContinuation (s.getD j 0) := by
  induction n with
  | zero =>
    rw [lastStart] at h
    split at h
    · cases h
    · rename_i hc
      cases h
      exact ⟨Nat.le_refl 0, by simpa using hc, fun j hj hj' => by omega⟩
  | succ n ih =>
    rw [lastStart] at h
    split at h
    · rename_i hc
      obtain ⟨hi, hstart, hbetween⟩ := ih h
      refine ⟨by omega, hstart, fun j hj hj' => ?_⟩
      rcases Nat.lt_or_eq_of_le hj' with hj' | rfl
      · exact hbetween j hj (by omega)
      · exact hc
    · rename_i hc
      cases h
      exact ⟨Nat.le_refl _, by simpa using hc, fun j hj hj' => by omega⟩

theorem lastStart_eq_none_iff :
    lastStart s n = none ↔ ∀ j ≤ n, isContinuation (s.getD j 0) := by
  induction n with
  | zero =>
    rw [lastStart]
    simp
  | succ n ih =>
    rw [lastStart]
    constructor
    · intro h j hj
      split at h
      · rename_i hc
        rcases Nat.lt_or_eq_of_le hj with hj | rfl
        · exact ih.mp h j (by omega)
        · exact hc
      · cases h
    · intro h
      rw [if_pos (h (n + 1) (Nat.le_refl _))]
      exact ih.mpr fun j hj => h j (by omega)

/-- A cut before the end: the last start up to it is the first byte to go; without one, none is. -/
theorem subUTF8String_cut (h : n < s.length) (fuel : Nat) :
    subUTF8String (fuel + n + 2) n s = .ok ((lastStart s n).elim s s.take) := by
  induction n with
  | zero =>
    rw [subUTF8String_step h, lastStart]
    split
    · exact subUTF8String_neg_one s fuel
    · rfl
  | succ n ih =>
    rw [subUTF8String_step h, lastStart]
    split
    · have hn : ((n + 1 : Nat) : Int) - 1 = n := by omega
      rw [hn]
      exact ih (by omega)
    · rfl

/-- The recursion ends. -/
theorem subUTF8String_returns (s : List UInt8) (n : Nat) :
    ∃ r, ∀ fuel ≥ n + 2, subUTF8String fuel n s = .ok r := by
  by_cases h : n < s.length
  · refine ⟨(lastStart s n).elim s s.take, fun fuel hf => ?_⟩
    obtain ⟨f, rfl⟩ := Nat.exists_eq_add_of_le hf
    rw [show n + 2 + f = f + n + 2 by omega]
    exact subUTF8String_cut h f
  · refine ⟨s, fun fuel hf => ?_⟩
    obtain ⟨f, rfl⟩ := Nat.exists_eq_add_of_le hf
    rw [show n + 2 + f = (n + 1 + f) + 1 by omega]
    exact subUTF8String_of_length_le (by omega) _

/-- What is asked for: a prefix of at most `n` bytes, of a valid string the longest valid one. -/
structure Fits (s : List UInt8) (n : Nat) (r : List UInt8) : Prop where
  isPrefix : r <+: s
  length_le : r.length ≤ n
  valid : Valid s → Valid r
  longest : Valid s → ∀ p, p <+: s → p.length ≤ n → Valid p → p.length ≤ r.length

/-- A prefix before the last start fits. -/
theorem fits_lastStart {i : Nat} (h : n < s.length) (hi : lastStart s n = some i) :
    Fits s n (s.take i) := by
  obtain ⟨hin, hstart, hbetween⟩ := of_lastStart_eq_some hi
  have hlen : (s.take i).length = i := List.length_take_of_le (by omega)
  have hget : ∀ j, (hj : j < s.length) → s.getD j 0 = s[j] := by
    intro j hj
    rw [List.getD_eq_getElem?_getD, List.getElem?_eq_getElem hj, Option.getD_some]
  refine ⟨List.take_prefix .., by omega, fun hs => ?_, fun hs p hp hpn hv => ?_⟩
  · refine (Utf8.valid_take_iff_not_isContinuation hs (by omega)).mpr ?_
    rw [← hget i (by omega), hstart]
  · rw [hlen]
    by_contra hlt
    have hp : p = s.take p.length := (List.prefix_iff_eq_take.mp hp)
    rw [hp, Utf8.valid_take_iff_not_isContinuation hs (by omega), ← hget p.length (by omega),
      hbetween p.length (by omega) hpn] at hv
    cases hv

/-- What is asked for is returned, just when the string is not longer or one of its first `n + 1`
bytes is not a continuation byte. -/
theorem subUTF8String_iff (s : List UInt8) (n : Nat) :
    (∃ F r, (∀ fuel ≥ F, subUTF8String fuel n s = .ok r) ∧ Fits s n r) ↔
      s.length ≤ n ∨ ∃ i ≤ n, ∃ hi : i < s.length, isContinuation s[i] = false := by
  by_cases h : n < s.length
  · have hget : ∀ j ≤ n, ∀ hj : j < s.length, s.getD j 0 = s[j] := by
      intro j _ hj
      rw [List.getD_eq_getElem?_getD, List.getElem?_eq_getElem hj, Option.getD_some]
    cases hcut : lastStart s n with
    | some i =>
      obtain ⟨hin, hstart, -⟩ := of_lastStart_eq_some hcut
      refine iff_of_true ⟨n + 2, s.take i, fun fuel hf => ?_, fits_lastStart h hcut⟩
        (Or.inr ⟨i, hin, by omega, by rw [← hget i hin, hstart]⟩)
      obtain ⟨f, rfl⟩ := Nat.exists_eq_add_of_le hf
      rw [show n + 2 + f = f + n + 2 by omega, subUTF8String_cut h f, hcut]
      rfl
    | none =>
      have hall := lastStart_eq_none_iff.mp hcut
      refine iff_of_false ?_ ?_
      · rintro ⟨F, r, hu, hfits⟩
        -- all of the string is returned, which is too long
        have hr := (hu (F + n + 2) (by omega)).symm.trans (subUTF8String_cut h F)
        rw [hcut] at hr
        obtain rfl : r = s := Except.ok.inj hr
        have := hfits.length_le
        omega
      · rintro (hle | ⟨i, hin, hi, hstart⟩)
        · omega
        · have hc := hall i hin
          rw [hget i hin hi, hstart] at hc
          cases hc
  · have hle : s.length ≤ n := by omega
    refine iff_of_true ⟨1, s, fun fuel hf => ?_, List.prefix_rfl, hle, id, fun _ p hp _ _ =>
      hp.length_le⟩ (Or.inl hle)
    obtain ⟨f, rfl⟩ := Nat.exists_eq_add_of_le hf
    rw [Nat.add_comm]
    exact subUTF8String_of_length_le hle f

/-- Two continuation bytes are returned where no byte may be. -/
theorem subUTF8String_too_long :
    ¬ ∃ F r, (∀ fuel ≥ F, subUTF8String fuel 0 [128, 128] = .ok r) ∧ Fits [128, 128] 0 r := by
  rintro ⟨F, r, hu, hfits⟩
  have hr := (hu (F + 0 + 2) (by omega)).symm.trans
    (subUTF8String_cut (s := [128, 128]) (n := 0) (by decide) F)
  obtain rfl : r = [128, 128] := Except.ok.inj hr
  exact absurd hfits.length_le (by decide)

end SkynetHotfix.Luaext
